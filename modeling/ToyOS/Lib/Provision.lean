import Mathlib.Data.List.Basic
import ToyOS.Lib.Loop

/-! # A walk with provisions

A walk comes to one stop after the other. A stop takes what it needs out of the
provisions and adds its room; the walk ends early at a stop the provisions do not
reach for, or behind one where there is enough room. `needed` is what it takes
not to run short, and `Follows` says that a program ends the way a walk does.
-/
namespace ToyOS.Lib.Provision
open ToyOS.Lib.Loop

structure Stop where
  need : Nat
  room : Nat

inductive Ending where
  | through
  | enough
  | short
deriving DecidableEq

/-- How a walk ends, with what is left and the room it has come to. -/
structure Progress where
  ending : Ending
  left : Nat
  room : Nat
deriving DecidableEq

variable {enough : Nat → Prop} [DecidablePred enough] {a m : Nat} {s : Stop} {l l₁ l₂ : List Stop}

section
variable (enough)

/-- From room `m` on, with provisions `a`. -/
def walk (a m : Nat) : List Stop → Progress
  | [] => ⟨.through, a, m⟩
  | s :: l =>
    if a < s.need then ⟨.short, a, m⟩
    else if enough (m + s.room) then ⟨.enough, a - s.need, m + s.room⟩
    else walk (a - s.need) (m + s.room) l

/-- What the stops need up to the one behind which there is enough room. -/
def needed (m : Nat) : List Stop → Nat
  | [] => 0
  | s :: l => s.need + if enough (m + s.room) then 0 else needed (m + s.room) l

end

/-- The room of all stops. -/
def rooms : List Stop → Nat
  | [] => 0
  | s :: l => s.room + rooms l

/-- A stop that needs something comes before every stop with room. -/
def Barred : List Stop → Prop
  | [] => False
  | s :: l => s.need ≠ 0 ∨ (s.room = 0 ∧ Barred l)

theorem walk_short (h : a < s.need) : walk enough a m (s :: l) = ⟨.short, a, m⟩ := if_pos h

theorem walk_enough (h : s.need ≤ a) (he : enough (m + s.room)) :
    walk enough a m (s :: l) = ⟨.enough, a - s.need, m + s.room⟩ := by
  rw [walk, if_neg (Nat.not_lt.mpr h), if_pos he]

theorem walk_on (h : s.need ≤ a) (he : ¬ enough (m + s.room)) :
    walk enough a m (s :: l) = walk enough (a - s.need) (m + s.room) l := by
  rw [walk, if_neg (Nat.not_lt.mpr h), if_neg he]

theorem rooms_cons (s : Stop) (l : List Stop) : rooms (s :: l) = s.room + rooms l := rfl

theorem rooms_append (l₁ l₂ : List Stop) : rooms (l₁ ++ l₂) = rooms l₁ + rooms l₂ := by
  induction l₁ with
  | nil => exact (Nat.zero_add _).symm
  | cons s l₁ ih => rw [List.cons_append, rooms_cons, rooms_cons, ih, Nat.add_assoc]

theorem walk_append (l₁ l₂ : List Stop) (a m : Nat) : walk enough a m (l₁ ++ l₂) =
    if (walk enough a m l₁).ending = .through then
      walk enough (walk enough a m l₁).left (walk enough a m l₁).room l₂
    else walk enough a m l₁ := by
  fun_induction walk enough a m l₁ with
  | case1 => rfl
  | case2 a m s l hs => exact walk_short hs
  | case3 a m s l hs he => exact walk_enough (Nat.not_lt.mp hs) he
  | case4 a m s l hs he ih => rw [List.cons_append, walk_on (Nat.not_lt.mp hs) he, ih]

theorem room_of_through (h : (walk enough a m l).ending = .through) :
    (walk enough a m l).room = m + rooms l := by
  revert h
  fun_induction walk enough a m l with
  | case1 => exact fun _ => rfl
  | case2 => exact fun h => by cases h
  | case3 => exact fun h => by cases h
  | case4 a m s l hs he ih =>
    intro h
    rw [ih h, rooms_cons, Nat.add_assoc]

/-- The walk runs short where more is needed than there is. -/
theorem short_iff : (walk enough a m l).ending = .short ↔ a < needed enough m l := by
  fun_induction walk enough a m l with
  | case1 => exact iff_of_false (fun h => by cases h) (Nat.not_lt_zero _)
  | case2 a m s l hs =>
    rw [needed]
    exact iff_of_true rfl (by omega)
  | case3 a m s l hs he =>
    rw [needed, if_pos he]
    exact iff_of_false (fun h => by cases h) hs
  | case4 a m s l hs he ih =>
    rw [needed, if_neg he, ih]
    omega

/-- A walk that does not run short uses up what is needed. -/
theorem left_add_needed (h : (walk enough a m l).ending ≠ .short) :
    (walk enough a m l).left + needed enough m l = a := by
  revert h
  fun_induction walk enough a m l with
  | case1 => exact fun _ => rfl
  | case2 => exact fun h => absurd rfl h
  | case3 a m s l hs he =>
    intro _
    rw [needed, if_pos he]
    dsimp only
    omega
  | case4 a m s l hs he ih =>
    intro h
    have hrest := ih h
    rw [needed, if_neg he]
    omega

/-- A walk that ends where there is enough room. -/
theorem enough_of_ending (h : (walk enough a m l).ending = .enough) :
    enough (walk enough a m l).room ∧ (walk enough a m l).room ≤ m + rooms l := by
  revert h
  fun_induction walk enough a m l with
  | case1 => exact fun h => by cases h
  | case2 => exact fun h => by cases h
  | case3 a m s l hs he =>
    intro _
    rw [rooms_cons]
    exact ⟨he, by dsimp only; omega⟩
  | case4 a m s l hs he ih =>
    intro h
    obtain ⟨hroom, hle⟩ := ih h
    rw [rooms_cons]
    exact ⟨hroom, by omega⟩

theorem not_enough_of_through (h0 : ¬ enough m) (h : (walk enough a m l).ending = .through) :
    ¬ enough (walk enough a m l).room := by
  revert h0 h
  fun_induction walk enough a m l with
  | case1 => exact fun h0 _ => h0
  | case2 => exact fun _ h => by cases h
  | case3 => exact fun _ h => by cases h
  | case4 a m s l hs he ih => exact fun _ h => ih he h

/-- Where no stop needs more than one, a walk that runs short has used up everything. -/
theorem left_of_short (hone : ∀ s ∈ l, s.need ≤ 1) (h : (walk enough a m l).ending = .short) :
    (walk enough a m l).left = 0 := by
  revert hone h
  fun_induction walk enough a m l with
  | case1 => exact fun _ h => by cases h
  | case2 a m s l hs =>
    intro hone _
    have hneed := hone s List.mem_cons_self
    dsimp only
    omega
  | case3 => exact fun _ h => by cases h
  | case4 a m s l hs he ih => exact fun hone h => ih (fun t ht => hone t (List.mem_cons_of_mem s ht)) h

theorem room_ge (l : List Stop) (a m : Nat) : m ≤ (walk enough a m l).room := by
  fun_induction walk enough a m l with
  | case1 => exact Nat.le_refl _
  | case2 => exact Nat.le_refl _
  | case3 a m s l hs he => exact Nat.le_add_right m s.room
  | case4 a m s l hs he ih => exact Nat.le_trans (Nat.le_add_right m s.room) ih

/-- Without provisions a walk runs short before it comes to any room exactly when it
is barred. -/
theorem barred_iff (ha : a = 0) (h : (walk enough a m l).ending = .short) :
    (walk enough a m l).room = m ↔ Barred l := by
  revert ha h
  fun_induction walk enough a m l with
  | case1 => exact fun _ h => by cases h
  | case2 a m s l hs => exact fun _ _ => iff_of_true rfl (.inl (by omega))
  | case3 => exact fun _ h => by cases h
  | case4 a m s l hs he ih =>
    intro ha h
    have hneed : s.need = 0 := by omega
    have hge : m + s.room ≤ (walk enough (a - s.need) (m + s.room) l).room := room_ge l _ _
    have hrest := ih (by omega) h
    rw [Barred, ← hrest]
    omega

theorem needed_congr {enough' : Nat → Prop} [DecidablePred enough'] (h : ∀ m, enough m ↔ enough' m) :
    needed enough m l = needed enough' m l := by
  induction l generalizing m with
  | nil => rfl
  | cons s l ih => simp only [needed, h, ih]

/-! ## Programs -/

universe u v
variable {σ : Type u} {ρ : Type v} {M N : Nat → Nat → σ → Prop} {E F : Nat → Nat → σ → ρ → Prop}
variable {p : Progress} {fl : Flow σ ρ} {f : σ → Flow σ ρ}

/-- A program that falls through with `N` where the walk does, returns with `E` where
there is enough and with `F` where the provisions are short. -/
def Follows (N : Nat → Nat → σ → Prop) (E F : Nat → Nat → σ → ρ → Prop) (p : Progress) :
    Flow σ ρ → Prop
  | .next s => p.ending = .through ∧ N p.left p.room s
  | .ret s r => (p.ending = .enough ∧ E p.left p.room s r) ∨ (p.ending = .short ∧ F p.left p.room s r)

theorem Follows.mono (h : Follows M E F p fl) (hN : ∀ a m s, M a m s → N a m s) :
    Follows N E F p fl := by
  cases fl with
  | next s => exact ⟨h.1, hN _ _ _ h.2⟩
  | ret s r => exact h

theorem Follows.and {P : σ → Prop} {Q : σ → ρ → Prop} (h : Follows M E F p fl) (hp : fl.Ends P Q) :
    Follows (fun a m s => M a m s ∧ P s) E F p fl := by
  cases fl with
  | next s => exact ⟨h.1, h.2, hp⟩
  | ret s r => exact h

theorem Follows.room (h : Follows M E F (walk enough a m l) fl) :
    Follows (fun a' m' s => M a' m' s ∧ m' = m + rooms l) E F (walk enough a m l) fl := by
  cases fl with
  | next s => exact ⟨h.1, h.2, room_of_through h.1⟩
  | ret s r => exact h

theorem Follows.bind (h : Follows M E F (walk enough a m l₁) fl)
    (hf : ∀ a m s, M a m s → Follows N E F (walk enough a m l₂) (f s)) :
    Follows N E F (walk enough a m (l₁ ++ l₂)) (fl.bind f) := by
  rw [walk_append]
  cases fl with
  | next s =>
    rw [if_pos h.1]
    exact hf _ _ _ h.2
  | ret s r =>
    have hne : (walk enough a m l₁).ending ≠ .through := by
      rcases h with ⟨h, -⟩ | ⟨h, -⟩
      · rw [h]
        simp
      · rw [h]
        simp
    rw [if_neg hne]
    exact h

/-- The rule for a counted loop: pass `i` comes to the stops `stops i`. -/
theorem follows_forFrom {I : Nat → Nat → Nat → σ → Prop} {body : Nat → σ → Flow σ ρ}
    {stops : Nat → List Stop} {lo c : Nat} {s : σ}
    (step : ∀ i a m s, lo ≤ i → i < lo + c → I i a m s →
      Follows (I (i + 1)) E F (walk enough a m (stops i)) (body i s)) (h : I lo a m s) :
    Follows (I (lo + c)) E F (walk enough a m ((List.range' lo c).flatMap stops))
      (forFrom body lo c s) := by
  induction c generalizing lo a m s with
  | zero => exact ⟨rfl, h⟩
  | succ c ih =>
    rw [List.range'_succ, List.flatMap_cons, forFrom]
    refine (step lo a m s (Nat.le_refl lo) (by omega) h).bind fun a' m' s' h' => ?_
    have hrest := ih (fun i a m s hlo hi => step i a m s (by omega) (by omega)) h'
    rwa [show lo + (c + 1) = lo + 1 + c by omega]

end ToyOS.Lib.Provision
