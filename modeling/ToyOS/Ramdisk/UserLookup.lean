import ToyOS.Ramdisk.Lookup
import ToyOS.Ramdisk.BlockOwnership

/-! # Path lookup of the user-space version

The user-space `discos.c` searches a directory with the text of the kernel
version, but takes its names from `strtok`, which passes over empty components;
`strsep` hands them out.
-/
namespace ToyOS.Ramdisk.UserLookup
open ToyOS.Lib.CStrings ToyOS.Ramdisk.Image ToyOS.Ramdisk.Paths ToyOS.Ramdisk.Lookup
open ToyOS.Ramdisk.BlockOwnership

variable {fs : FileSys} {x n fuel : Nat} {t rest s : Str} {ts : List Str} {r : Found}

/-- `strtok` with delimiter `/` on what is left of its text: the next token, and
what is left after it. -/
def strtok (rest : Str) : Option (Str × Str) :=
  match rest.dropWhile (· == slash) with
  | [] => none
  | c :: cs => some ((c :: cs).takeWhile (· != slash), ((c :: cs).dropWhile (· != slash)).drop 1)

/-- The `while` loop from inode `cur` on. Each token takes a byte, so the length
of the text is fuel enough. -/
def strtokLoop (fs : FileSys) : (fuel : Nat) → (cur : Nat) → (rest : Str) → Found
  | 0, cur, _ => .inode cur
  | fuel + 1, cur, rest =>
    match strtok rest with
    | none => .inode cur
    | some (splitString, rest) =>
      if 1024 ≤ cur then .outside
      else match findComponent fs cur splitString with
        | some n => strtokLoop fs fuel n rest
        | none => .missing

/-- `find_inode_number`; `missing` is -1. -/
def findInodeNumber (fs : FileSys) (pathname : Str) : Found :=
  strtokLoop fs (pathname.length + 1) 0 pathname

/-! ## The tokens of a path -/

/-- The components that are not empty. -/
def names (ts : List Str) : List Str := ts.filter (· ≠ [])

theorem names_cons_nil (ts : List Str) : names ([] :: ts) = names ts := rfl

theorem names_cons (h : t ≠ []) (ts : List Str) : names (t :: ts) = t :: names ts :=
  List.filter_cons_of_pos (by simpa using h)

theorem splitOn_slash (s : Str) : (slash :: s).splitOn slash = [] :: s.splitOn slash := by
  simp [List.splitOn_eq_splitOnP, List.splitOnP_cons_eq_if_modifyHead]

theorem names_dropWhile (s : Str) :
    names ((s.dropWhile (· == slash)).splitOn slash) = names (s.splitOn slash) := by
  induction s with
  | nil => rfl
  | cons c s ih =>
    rw [List.dropWhile_cons]
    split
    · rename_i hc
      obtain rfl := beq_iff_eq.mp hc
      rw [ih, splitOn_slash, names_cons_nil]
    · rfl

/-- The first component is what stands before the first slash. -/
theorem splitOn_eq (s : Str) : s.splitOn slash =
    match s.dropWhile (· != slash) with
    | [] => [s.takeWhile (· != slash)]
    | _ :: rest => s.takeWhile (· != slash) :: rest.splitOn slash := by
  induction s with
  | nil => rfl
  | cons c s ih =>
    by_cases hc : c = slash
    · subst hc
      rw [splitOn_slash]
      simp
    · have hne : (c != slash) = true := by simpa using hc
      rw [List.splitOn_eq_splitOnP, List.splitOnP_cons_eq_if_modifyHead, ← List.splitOn_eq_splitOnP,
        if_neg (by simpa using hc), ih, List.dropWhile_cons, if_pos hne, List.takeWhile_cons,
        if_pos hne]
      cases s.dropWhile (· != slash) <;> rfl

theorem strtok_none (h : strtok rest = none) : names (rest.splitOn slash) = [] := by
  unfold strtok at h
  rw [← names_dropWhile]
  cases hd : rest.dropWhile (· == slash) with
  | nil => rfl
  | cons c cs => rw [hd] at h; cases h

theorem strtok_some {rest' : Str} (h : strtok rest = some (t, rest')) :
    names (rest.splitOn slash) = t :: names (rest'.splitOn slash) ∧ rest'.length < rest.length := by
  unfold strtok at h
  rw [← names_dropWhile]
  have hle := (List.dropWhile_sublist (l := rest) (· == slash)).length_le
  cases hd : rest.dropWhile (· == slash) with
  | nil => rw [hd] at h; cases h
  | cons c cs =>
    rw [hd] at h hle
    obtain ⟨rfl, rfl⟩ := Prod.mk.inj (Option.some.inj h)
    have hc : (c != slash) = true := by
      have := List.head_dropWhile_not (p := (· == slash)) (w := by rw [hd]; simp)
      simpa [hd] using this
    have hne : (c :: cs).takeWhile (· != slash) ≠ [] := by
      rw [List.takeWhile_cons, if_pos hc]
      exact List.cons_ne_nil _ _
    have hlen : ((c :: cs).dropWhile (· != slash)).length ≤ cs.length := by
      rw [List.dropWhile_cons, if_pos hc]
      exact (List.dropWhile_sublist _).length_le
    rw [splitOn_eq]
    constructor
    · cases hs : (c :: cs).dropWhile (· != slash) with
      | nil => simp [names, hne]
      | cons d ds => exact names_cons hne _
    · rw [List.length_drop]
      rw [List.length_cons] at hle
      omega

theorem strtokLoop_eq (h : rest.length < fuel) :
    strtokLoop fs fuel x rest = walk fs x (names (rest.splitOn slash)) := by
  induction fuel generalizing x rest with
  | zero => omega
  | succ fuel ih =>
    rw [strtokLoop]
    cases hs : strtok rest with
    | none => rw [strtok_none hs]; rfl
    | some r =>
      obtain ⟨t, rest'⟩ := r
      obtain ⟨hn, hlt⟩ := strtok_some hs
      rw [hn, walk]
      dsimp only
      split
      · rfl
      · cases findComponent fs x t with
        | none => rfl
        | some n => exact ih (by omega)

/-- The lookup of the user-space version is the walk over the names of the path. -/
theorem findInodeNumber_eq (fs : FileSys) (s : Str) :
    findInodeNumber fs (slash :: s) = walk fs 0 (names (s.splitOn slash)) := by
  rw [findInodeNumber, strtokLoop_eq (Nat.lt_succ_self _), splitOn_slash, names_cons_nil]

/-! ## Where the two lookups agree -/

/-- From inode `x` the entries named `ts`, one directory after the other, lead
to `r`: to an inode, to a directory without the next name, or out of `inodes[]`. -/
inductive Leads (fs : FileSys) : Nat → List Str → Found → Prop where
  | here (x : Nat) : Leads fs x [] (.inode x)
  | through {x n : Nat} {t : Str} {ts : List Str} {r : Found} : x < 1024 →
      findComponent fs x t = some n → Leads fs n ts r → Leads fs x (t :: ts) r
  | missing {x : Nat} {t : Str} {ts : List Str} : x < 1024 → findComponent fs x t = none →
      Leads fs x (t :: ts) .missing
  | outside {x : Nat} {t : Str} {ts : List Str} : 1024 ≤ x → Leads fs x (t :: ts) .outside

theorem leads_iff : Leads fs x ts r ↔ walk fs x ts = r := by
  constructor
  · intro h
    induction h with
    | here => rfl
    | through hx hf _ ih => rw [walk, if_neg (by omega), hf]; exact ih
    | missing hx hf => rw [walk, if_neg (by omega), hf]
    | outside hx => rw [walk, if_pos hx]
  · rintro rfl
    induction ts generalizing x with
    | nil => exact .here x
    | cons t ts ih =>
      rw [walk]
      split
      · rename_i hx
        exact .outside hx
      · rename_i hx
        cases hf : findComponent fs x t with
        | none => exact .missing (by omega) hf
        | some n => exact .through (by omega) hf ih

/-- At inode `x`, an empty component in front of `ts` can be passed over. `strsep`
hands it out, so the kernel version goes on from the first blank entry of `x`:
one without a name, with another number than `x`. -/
inductive Harmless (fs : FileSys) (x : Nat) (ts : List Str) : Prop where
  /-- The way by the blank entry ends where the names of `ts` lead to. -/
  | detour {n : Nat} {r : Found} : x < 1024 → findComponent fs x [] = some n → Leads fs n ts r →
      Leads fs x (names ts) r → Harmless fs x ts
  /-- There is no blank entry, and the names of `ts` are missing too. -/
  | missing : x < 1024 → findComponent fs x [] = none → Leads fs x (names ts) .missing →
      Harmless fs x ts
  /-- There is no inode `x`, and `ts` has a name to look up in it. -/
  | outside : 1024 ≤ x → names ts ≠ [] → Harmless fs x ts

theorem harmless_iff : Harmless fs x ts ↔ walk fs x ([] :: ts) = walk fs x (names ts) := by
  rw [walk]
  constructor
  · intro h
    cases h with
    | detour hx hf h h' =>
      rw [if_neg (by omega), hf, leads_iff.mp h']
      exact leads_iff.mp h
    | missing hx hf h => rw [if_neg (by omega), hf, leads_iff.mp h]
    | outside hx hne =>
      obtain ⟨t, us, hts⟩ := List.exists_cons_of_ne_nil hne
      rw [if_pos hx, hts, walk, if_pos hx]
  · intro h
    split at h
    · rename_i hx
      refine .outside hx fun hts => ?_
      rw [hts] at h
      cases h
    · rename_i hx
      cases hf : findComponent fs x [] with
      | none =>
        rw [hf] at h
        exact .missing (by omega) hf (leads_iff.mpr h.symm)
      | some n =>
        rw [hf] at h
        exact .detour (by omega) hf (leads_iff.mpr rfl) (leads_iff.mpr h.symm)

theorem names_of_notMem (h : [] ∉ ts) : names ts = ts :=
  List.filter_eq_self.mpr fun t ht => by simpa using fun e : t = [] => h (e ▸ ht)

theorem names_append (ts us : List Str) : names (ts ++ us) = names ts ++ names us :=
  List.filter_append ..

/-- Only the first empty component matters: what comes after it is compared by
`Harmless`. -/
theorem walk_names_iff : walk fs 0 ts = walk fs 0 (names ts) ↔
    ∀ before after x, ts = before ++ [] :: after → [] ∉ before →
      Leads fs 0 before (.inode x) → Harmless fs x after := by
  constructor
  · rintro h before after x rfl hb hx
    rw [walk_append, names_append, names_of_notMem hb, walk_append, leads_iff.mp hx] at h
    exact harmless_iff.mpr h
  · intro h
    by_cases hts : [] ∈ ts
    · obtain ⟨before, after, rfl, hb⟩ := List.eq_append_cons_of_mem hts
      rw [walk_append, names_append, names_of_notMem hb, walk_append]
      cases hw : walk fs 0 before with
      | inode x => exact harmless_iff.mp (h before after x rfl hb (leads_iff.mpr hw))
      | missing => rfl
      | outside => rfl
    · rw [names_of_notMem hts]

/-- The kernel and the user-space version find the same number exactly when the
path is `/`, or when the first empty component, if the names before it lead to an
inode at all, can be passed over there. -/
theorem lookups_agree_iff (fs : FileSys) (s : Str) :
    myFindInodeNumber fs (slash :: s) = findInodeNumber fs (slash :: s) ↔
      s = [] ∨ ∀ before after x, s.splitOn slash = before ++ [] :: after → [] ∉ before →
        Leads fs 0 before (.inode x) → Harmless fs x after := by
  rw [findInodeNumber_eq, ← walk_names_iff]
  by_cases hs : s = []
  · subst hs
    rw [myFindInodeNumber, if_pos rfl]
    exact ⟨fun _ => .inl rfl, fun _ => rfl⟩
  · rw [myFindInodeNumber, if_neg (by simpa using hs), List.drop_one, List.tail_cons,
      or_iff_right hs]

/-- File `/a` is there, but the kernel version finds no blank entry in the
root that leads on from `//a`. -/
theorem doubled_slash_missing :
    myFindInodeNumber oneFile.discos (slash :: slash :: nameA.bytes) = .missing ∧
      findInodeNumber oneFile.discos (slash :: slash :: nameA.bytes) = .inode 1 := by
  decide +kernel

end ToyOS.Ramdisk.UserLookup
