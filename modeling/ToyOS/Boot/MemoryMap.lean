import ToyOS.Boot.Hexadecimal

/-! # The memory map

`memos.c` walks the memory map that the boot loader leaves and prints a line for
each entry and the size of the free memory. Printing writes to memory too, but not
where the map is, so what is printed is the report on the map that was there.
-/
namespace ToyOS.Boot.MemoryMap
open ToyOS.Lib.CStrings ToyOS.Lib.Words ToyOS.Lib.Typing ToyOS.Boot.Screen ToyOS.Boot.Hexadecimal

/-- `multiboot_memory_map_t`, which is packed. -/
structure MmapEntry where
  size : Nat
  addr : Nat
  len : Nat
  type : Nat
deriving DecidableEq

def mmapAt (mem : Bytes) (p : Nat) : MmapEntry where
  size := load mem p 4
  addr := load mem (p + 4) 8
  len := load mem (p + 12) 8
  type := load mem (p + 20) 4

/-- Two fields of `multiboot_info_t`. -/
def mmapLength (mem : Bytes) (mbi : Nat) : Nat := load mem (mbi + 44) 4
def mmapAddr (mem : Bytes) (mbi : Nat) : Nat := load mem (mbi + 48) 4

@[irreducible] def text (s : String) : Str := s.toList.map fun c => UInt8.ofNat c.toNat

section
variable (stack : Bytes)

def printMemorySize (con : Console) (memorySize : Nat) : Console :=
  let con := print con (text "MemOS 2: Welcome *** System memory is (in MB): ")
  putChar (printHexString con stack (memorySize >>> 20)) 10

/-- `base_addr + len - 1` in 64 bits. -/
def lastAddr (baseAddr len : Nat) : Nat := (baseAddr + len + (2 ^ 64 - 1)) % 2 ^ 64

def printMemoryRange (con : Console) (baseAddr len type : Nat) : Console :=
  let con := print con (text "Address range: [")
  let con := printHexString con stack baseAddr
  let con := putChar con 126
  let con := printHexString con stack (lastAddr baseAddr len)
  let con := print con (text "] -> ")
  if type = 1 then println con (text "Free memory (1)")
  else if type = 2 then println con (text "Reserved memory (2)")
  else println con (text "Others")

/-- The loop of `print_memory_map`; `fuel` bounds the number of passes. -/
def mmapLoop (mbi : Nat) : (fuel : Nat) → Console → (mmap memorySize : Nat) → Option (Console × Nat)
  | 0, _, _, _ => none
  | fuel + 1, con, mmap, memorySize =>
    if mmap < (mmapAddr con.mem mbi + mmapLength con.mem mbi) % 2 ^ 32 then
      let e := mmapAt con.mem mmap
      let memorySize := if e.type = 1 then (memorySize + e.len) % 2 ^ 64 else memorySize
      let con := printMemoryRange stack con e.addr e.len e.type
      mmapLoop mbi fuel con ((mmap + (mmapAt con.mem mmap).size + 4) % 2 ^ 32) memorySize
    else some (con, memorySize)

def printMemoryMap (con : Console) (addr fuel : Nat) : Option Console :=
  (mmapLoop stack addr fuel con (mmapAddr con.mem addr) 0).map fun r => printMemorySize stack r.1 r.2

end

/-! ## The report on a map -/

def kind (type : Nat) : Str :=
  if type = 1 then text "Free memory (1)" else if type = 2 then text "Reserved memory (2)" else text "Others"

def number (data : Nat) : Str := 48 :: 120 :: digits data 16

def rangeLine (e : MmapEntry) : Str :=
  text "Address range: [" ++ number e.addr ++ [126] ++ number (lastAddr e.addr e.len) ++ text "] -> " ++
    kind e.type ++ [10]

/-- The bytes of free memory. -/
def freeMemory (es : List MmapEntry) : Nat := ((es.filter (·.type = 1)).map (·.len)).sum

def report (es : List MmapEntry) : Str :=
  es.flatMap rangeLine ++ text "MemOS 2: Welcome *** System memory is (in MB): " ++
    number (freeMemory es % 2 ^ 64 / 2 ^ 20) ++ [10]

/-- The entries lie one behind the other from `p` on, each as long as it says. -/
def Mapped (mem : Bytes) : Nat → List MmapEntry → Prop
  | _, [] => True
  | p, e :: es => mmapAt mem p = e ∧ Mapped mem (p + e.size + 4) es

def extent (es : List MmapEntry) : Nat := (es.map (·.size + 4)).sum

/-- The boot loader's map: it ends below 4 GB, and video memory is elsewhere. -/
structure MapAt (mem : Bytes) (mbi : Nat) (es : List MmapEntry) : Prop where
  length : mmapLength mem mbi = extent es
  entries : Mapped mem (mmapAddr mem mbi) es
  sizes : ∀ e ∈ es, 20 ≤ e.size
  word : mmapAddr mem mbi + extent es < 2 ^ 32
  info : ∀ a, mbi + 44 ≤ a → a < mbi + 52 → ¬ InVideo a
  map : ∀ a, mmapAddr mem mbi ≤ a → a < mmapAddr mem mbi + extent es → ¬ InVideo a

/-! ## Everything is printed -/

variable {stack mem : Bytes} {con : Console} {p : Paper UInt8} {mbi q m : Nat} {e : MmapEntry}
variable {es es₀ : List MmapEntry} {fuel : Nat}

theorem newline_eq (con : Console) : newline con = print con [10] := rfl

theorem putChar_eq (con : Console) (ch : UInt8) : putChar con ch = print con [ch] := rfl

theorem println_eq (con : Console) (s : Str) : println con s = print con (s ++ [10]) := by
  rw [print_append, ← newline_eq]
  rfl

theorem printHexString_eq (con : Console) (data : Nat) :
    printHexString con stack data = print con (number data) := by
  unfold printHexString
  rw [hexText_eq]
  rfl

theorem printMemoryRange_eq (con : Console) (e : MmapEntry) :
    printMemoryRange stack con e.addr e.len e.type = print con (rangeLine e) := by
  have hlast : ∀ con' : Console, (if e.type = 1 then println con' (text "Free memory (1)")
      else if e.type = 2 then println con' (text "Reserved memory (2)")
      else println con' (text "Others")) = print con' (kind e.type ++ [10]) := fun con' => by
    unfold kind
    split
    · exact println_eq ..
    · split <;> exact println_eq ..
  unfold printMemoryRange rangeLine
  dsimp only
  rw [hlast, printHexString_eq, printHexString_eq, putChar_eq]
  simp only [print_append]

theorem printMemorySize_eq (con : Console) (n : Nat) : printMemorySize stack con n =
    print con (text "MemOS 2: Welcome *** System memory is (in MB): " ++ number (n / 2 ^ 20) ++ [10]) := by
  unfold printMemorySize
  dsimp only
  rw [printHexString_eq, Nat.shiftRight_eq_div_pow, putChar_eq]
  simp only [print_append]

/-! ## The walk -/

theorem mmapAt_congr {mem' : Bytes} (h : ∀ a, q ≤ a → a < q + 24 → mem' a = mem a) :
    mmapAt mem' q = mmapAt mem q := by
  have hload : ∀ off n, q ≤ off → off + n ≤ q + 24 → load mem' off n = load mem off n := fun off n h1 h2 =>
    load_congr fun a h3 h4 => h a (by omega) (by omega)
  unfold mmapAt
  rw [hload q 4 (by omega) (by omega), hload (q + 4) 8 (by omega) (by omega),
    hload (q + 12) 8 (by omega) (by omega), hload (q + 20) 4 (by omega) (by omega)]

theorem extent_cons (e : MmapEntry) (es : List MmapEntry) : extent (e :: es) = e.size + 4 + extent es := by
  unfold extent
  rw [List.map_cons, List.sum_cons]

theorem mapped_congr {mem' : Bytes} (hsizes : ∀ e ∈ es, 20 ≤ e.size)
    (h : ∀ a, q ≤ a → a < q + extent es → mem' a = mem a) (hm : Mapped mem q es) : Mapped mem' q es := by
  induction es generalizing q with
  | nil => trivial
  | cons e es ih =>
    obtain ⟨he, hes⟩ := hm
    have hsize := hsizes e (List.mem_cons_self ..)
    rw [extent_cons] at h
    refine ⟨(mmapAt_congr fun a h1 h2 => h a h1 (by omega)).trans he, ?_⟩
    exact ih (fun e he => hsizes e (List.mem_cons_of_mem _ he)) (fun a h1 h2 => h a (by omega) (by omega)) hes

/-- Printing leaves the map as it was. -/
theorem MapAt.frame {mem' : Bytes} (h : MapAt mem mbi es) (hf : ∀ a, ¬ InVideo a → mem' a = mem a) :
    MapAt mem' mbi es := by
  have hl : mmapLength mem' mbi = mmapLength mem mbi :=
    load_congr fun a h1 h2 => hf a (h.info a h1 (by omega))
  have ha : mmapAddr mem' mbi = mmapAddr mem mbi :=
    load_congr fun a h1 h2 => hf a (h.info a (by omega) h2)
  constructor
  · rw [hl, h.length]
  · rw [ha]
    exact mapped_congr h.sizes (fun a h1 h2 => hf a (h.map a h1 h2)) h.entries
  · exact h.sizes
  · rw [ha]
    exact h.word
  · exact h.info
  · rw [ha]
    exact h.map

/-- The free memory of the entries to come is added, modulo 2^64. -/
def added (m : Nat) (es : List MmapEntry) : Nat := (m + freeMemory es) % 2 ^ 64

theorem added_cons (m : Nat) (e : MmapEntry) (es : List MmapEntry) :
    added (if e.type = 1 then (m + e.len) % 2 ^ 64 else m) es = added m (e :: es) := by
  unfold added freeMemory
  by_cases ht : e.type = 1
  · rw [if_pos ht, List.filter_cons_of_pos (by simpa using ht), List.map_cons, List.sum_cons]
    omega
  · rw [if_neg ht, List.filter_cons_of_neg (by simpa using ht)]

/-- The bound of the loop is read again on every pass. -/
theorem bound_eq (hm : MapAt mem mbi es₀) (h : Shows mem con p) :
    (mmapAddr con.mem mbi + mmapLength con.mem mbi) % 2 ^ 32 = mmapAddr mem mbi + extent es₀ := by
  have ha : mmapAddr con.mem mbi = mmapAddr mem mbi :=
    load_congr fun a h1 h2 => h.frame a (hm.info a (by omega) h2)
  rw [(hm.frame h.frame).length, ha, Nat.mod_eq_of_lt hm.word]

theorem mmapLoop_eq (hm : MapAt mem mbi es₀) (h : Shows mem con p) (hlo : mmapAddr mem mbi ≤ q)
    (hend : q + extent es = mmapAddr mem mbi + extent es₀) (hsizes : ∀ e ∈ es, 20 ≤ e.size)
    (hmap : Mapped mem q es) (hword : m < 2 ^ 64) (hfuel : es.length < fuel) :
    mmapLoop stack mbi fuel con q m = some (print con (es.flatMap rangeLine), added m es) := by
  induction es generalizing con p q m fuel with
  | nil =>
    obtain ⟨fuel, rfl⟩ := Nat.exists_eq_add_of_lt hfuel
    have hq : q = mmapAddr mem mbi + extent es₀ := hend
    rw [mmapLoop, bound_eq hm h, if_neg (by omega)]
    unfold added freeMemory
    rw [List.flatMap_nil, List.filter_nil, List.map_nil, List.sum_nil, Nat.add_zero,
      Nat.mod_eq_of_lt hword]
    rfl
  | cons e es ih =>
    obtain ⟨fuel, rfl⟩ := Nat.exists_eq_add_of_lt hfuel
    obtain ⟨he, hmap⟩ := hmap
    have hsize := hsizes e (List.mem_cons_self ..)
    have hword' := hm.word
    rw [extent_cons] at hend
    have hentry : ∀ {con' : Console} {p'}, Shows mem con' p' → mmapAt con'.mem q = e := fun h' =>
      (mmapAt_congr fun a h1 h2 => h'.frame a (hm.map a (by omega) (by omega))).trans he
    have hprinted := print_shows h (rangeLine e)
    have hsum : (if e.type = 1 then (m + e.len) % 2 ^ 64 else m) < 2 ^ 64 := by
      split
      · exact Nat.mod_lt _ (by decide)
      · exact hword
    rw [mmapLoop, bound_eq hm h, if_pos (by omega)]
    dsimp only
    rw [hentry h, printMemoryRange_eq, hentry hprinted,
      Nat.mod_eq_of_lt (show q + e.size + 4 < 2 ^ 32 by omega)]
    refine (ih hprinted (by omega) (by omega) (fun e he => hsizes e (List.mem_cons_of_mem _ he)) hmap hsum
      (by rw [List.length_cons]; omega)).trans ?_
    rw [List.flatMap_cons, print_append, added_cons]

/-- What is printed is the report on the map. -/
theorem printMemoryMap_eq (hm : MapAt mem mbi es) (h : Shows mem con p) (hfuel : es.length < fuel) :
    printMemoryMap stack con mbi fuel = some (print con (report es)) := by
  have ha : mmapAddr con.mem mbi = mmapAddr mem mbi :=
    load_congr fun a h1 h2 => h.frame a (hm.info a (by omega) h2)
  unfold printMemoryMap
  rw [ha, mmapLoop_eq hm h le_rfl rfl hm.sizes hm.entries (by decide) hfuel, Option.map_some,
    printMemorySize_eq, ← print_append]
  unfold report added
  rw [Nat.zero_add]
  simp only [List.append_assoc]

/-! ## What `init` shows first -/

def title : Str := text "File system DISCOS: Jiaqian Sun, Ziqi Tan"

/-- The first lines of `init`, up to the memory map. -/
def greet (stack : Bytes) (con : Console) (addr fuel : Nat) : Option Console :=
  let con := cls con
  let con := println con title
  printMemoryMap stack con addr fuel

theorem greet_eq (con : Console) (hm : MapAt con.mem mbi es) (hfuel : es.length < fuel) :
    greet stack con mbi fuel = some (print (cls con) (title ++ [10] ++ report es)) := by
  have htitle := print_shows (cls_shows con) (title ++ [10])
  unfold greet
  dsimp only
  rw [println_eq, printMemoryMap_eq hm htitle hfuel, ← print_append]

/-- Once there is fuel for the entries, the screen shows the end of the report on the
boot loader's map, and the memory outside the screen is what it was. -/
theorem greet_shows (con : Console) (hm : MapAt con.mem mbi es) (hfuel : es.length < fuel) :
    ∃ con', greet stack con mbi fuel = some con' ∧ Shows con.mem con'
      (Paper.empty.typed COLUMNS isBreak (title ++ [10] ++ report es)) :=
  ⟨_, greet_eq con hm hfuel, print_shows (cls_shows con) _⟩

/-- A map with 1 MB of free memory at 0, in memory that is 0 otherwise. -/
def lowMap : Bytes := fun a =>
  if a = 44 then 24 else if a = 49 then 1 else if a = 256 then 20 else if a = 270 then 16
  else if a = 276 then 1 else 0

theorem lowMap_at : MapAt lowMap 0 [⟨20, 0, 1048576, 1⟩] := by
  have hvideo : ∀ a, a < 1024 → ¬ InVideo a := fun a ha hin => by
    have hlo : 0xB8000 ≤ a := hin.1
    omega
  have haddr : mmapAddr lowMap 0 = 256 := by decide
  have hinfo : ∀ a, 0 + 44 ≤ a → a < 0 + 52 → ¬ InVideo a := fun a _ ha => hvideo a (by omega)
  refine ⟨by decide, ?_, by decide, ?_, hinfo, ?_⟩
  · rw [haddr]
    exact ⟨by decide, trivial⟩
  · rw [haddr]
    decide
  · rw [haddr]
    exact fun a _ ha => hvideo a (Nat.lt_of_lt_of_le ha (by decide))

theorem greet_shows_lowMap :
    ∃ con', greet (fun _ => 0) ⟨lowMap, 0, 0, 0⟩ 0 2 = some con' ∧ Shows lowMap con'
      (Paper.empty.typed COLUMNS isBreak
        (title ++ [10] ++ report [⟨20, 0, 1048576, 1⟩])) :=
  greet_shows ⟨lowMap, 0, 0, 0⟩ lowMap_at (by decide)

end ToyOS.Boot.MemoryMap
