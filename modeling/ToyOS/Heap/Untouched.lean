import ToyOS.Heap.Clients

/-! # What a call of the allocator leaves alone

`malloc` and `free` write headers only. Every byte outside the buffer stays, and
so does every byte of an allocation that is live before and after the call.
-/
namespace ToyOS.Heap.Untouched
open ToyOS.Lib.Words ToyOS.Lib.Tiles ToyOS.Heap.Memory ToyOS.Heap.Layout ToyOS.Heap.Blocks
  ToyOS.Heap.Allocation ToyOS.Heap.Clients

variable {B : Buffer} {m : Bytes} {st : State} {op : Op} {p q s x n last size addr : Nat} {t u : Tile}
variable {ts xs ys : List Tile}

/-- An address the linker has given to something else. -/
def Outside (B : Buffer) (x : Nat) : Prop := x < B.addr ∨ B.addr + DEFAULT_MEM_SIZE ≤ x

/-- A word that lies in the buffer is written. -/
theorem putW_outside (hx : Outside B x) (h1 : B.addr ≤ p) (h2 : p + 4 ≤ B.addr + DEFAULT_MEM_SIZE) :
    putW m p n x = m x := by
  unfold Outside at hx
  exact putW_other _ _ (by omega)

theorem putLast_outside (hx : Outside B x) : putLast B m n x = m x :=
  putW_outside hx (by simp only [Buffer.baseptr]; omega)
    (by simp only [Buffer.baseptr, DEFAULT_MEM_SIZE, DSIZE]; omega)

/-- The word behind the next block's size is written, or `LASTPTR`. -/
theorem linkNext_outside (hx : Outside B x) (h : At B m xs t ys p) {m' : Bytes} :
    linkNext B m' (nextBlkp B m p) n last x = m' x := by
  have hends := h.ends
  have hpos : B.addr + 8 ≤ p := h.pos.1
  rw [linkNext, h.next]
  cases ys with
  | nil => exact putLast_outside hx
  | cons y ys =>
    have hsize := h.laid.size_ge y (by simp)
    rw [total_cons] at hends
    rw [if_neg (List.cons_ne_nil y ys), if_pos (by omega)]
    exact putW_outside hx (by omega) (by simp only [WSIZE]; omega)

theorem combine_outside (hx : Outside B x) (h : At B m xs t (u :: ys) p) :
    combine B m p (p + t.size) x = m x := by
  have hends := h.ends
  have hpos : B.addr + 8 ≤ p := h.pos.1
  have hsize := h.sized.1
  rw [combine, linkNext_outside hx (h.succ rfl)]
  exact putW_outside hx (by omega) (by omega)

theorem place_outside (hx : Outside B x) (h : At B m xs t ys p) : place B m p n x = m x := by
  have hends := h.ends
  have hpos : B.addr + 8 ≤ p := h.pos.1
  have hsize := h.sized.1
  unfold place
  dsimp only
  split
  · exact putW_outside hx (by omega) (by omega)
  · next hbig =>
    rw [h.getSize] at hbig ⊢
    unfold DSIZE at hbig
    rw [linkNext_outside hx h, putW_outside hx (by omega) (by simp only [WSIZE]; omega),
      putW_outside hx (by omega) (by omega), putW_outside hx (by omega) (by omega)]

theorem freeNext_outside (hx : Outside B x) (h : At B m xs t ys p) : freeNext B m p x = m x := by
  have hends := h.ends
  have hpos : B.addr + 8 ≤ p := h.pos.1
  have hsize := h.sized.1
  unfold freeNext
  split
  · next hnext =>
    cases ys with
    | nil => rw [h.next, if_pos rfl] at hnext; exact absurd rfl hnext.1
    | cons y ys => rw [h.next, if_neg (by simp)]; exact combine_outside hx h
  · exact putW_outside hx (by omega) (by omega)

theorem freePrev_outside (hx : Outside B x) (h : At B m xs t ys p) : freePrev B m p x = m x := by
  unfold freePrev
  split
  · next hprev =>
    rcases xs.eq_nil_or_concat with rfl | ⟨ws, w, hlast⟩
    · exact absurd (h.before_first rfl) hprev.1
    · rw [List.concat_eq_append] at hlast
      obtain ⟨hp, hw⟩ := h.before hlast
      have hend : B.baseptr + total ws + w.size = p := by
        rw [h.here, hlast]
        simp only [total_append, total_cons, total_nil]
        omega
      rw [hp, ← hend]
      exact combine_outside hx hw
  · rfl

theorem malloc_outside (h : Served B st ts) (hx : Outside B x) :
    (step B st (.malloc size)).mem x = st.mem x := by
  by_cases h0 : size = 0
  · have hm : Memory.malloc B st.mem size = some (st.mem, 0) := by rw [Memory.malloc, if_pos h0]
    rw [step, hm]
    rfl
  · rcases malloc_finds h.tidy (Nat.pos_of_ne_zero h0) with ⟨hm, -⟩ | ⟨xs, t, ys, hts, -, -, hm⟩
    · rw [step, hm]
      rfl
    · rw [step, hm]
      exact place_outside hx ⟨hts ▸ h.tidy.toLaid, rfl⟩

theorem free_outside (h : Served B st ts) (ha : Allowed B st (.free addr)) (hx : Outside B x) :
    (step B st (.free addr)).mem x = st.mem x := by
  show Memory.free B st.mem addr x = st.mem x
  rcases ha with rfl | hmem
  · rw [Memory.free, if_pos rfl]
  · obtain ⟨⟨p, s⟩, hp, rfl⟩ := List.mem_map.mp hmem
    obtain ⟨q, t, hq, rfl, -⟩ := h.block p s hp
    obtain ⟨xs, ys, rfl, hat⟩ := laid_at h.tidy.toLaid (mem_usedAt.mp hq).1
    obtain ⟨-, hys, -⟩ := coalesced_append.mp h.tidy.coalesced
    obtain ⟨f, zs, hf, -⟩ := freeNext_spec hat hys
    rw [Memory.free, if_neg (by omega), DSIZE, Nat.add_sub_cancel]
    rw [freePrev_outside hx hf, freeNext_outside hx hat]

/-- A call writes neither outside the buffer nor into what is live before and after it. -/
theorem step_leaves (h : Served B st ts) (ha : Allowed B st op) (hcall : ∀ a v, op ≠ .write a v)
    (hx : Outside B x ∨ ∃ p s, (p, s) ∈ (step B st op).live ∧ p ≤ x ∧ x < p + s) :
    (step B st op).mem x = st.mem x := by
  rcases hx with hx | ⟨p, s, hp, h1, h2⟩
  · cases op with
    | malloc size => exact malloc_outside h hx
    | free addr => exact free_outside h ha hx
    | write a v => exact absurd rfl (hcall a v)
  · obtain ⟨ts', hs', hkept⟩ := step_served h ha
    obtain ⟨q, t, hq, rfl, hfit⟩ := hs'.block p s hp
    exact hkept hcall q t hq x h1 (by omega)

end ToyOS.Heap.Untouched
