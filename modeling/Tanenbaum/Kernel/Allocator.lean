import Tanenbaum.Kernel.FreeList

namespace Tanenbaum.Kernel.Heap

open Lib.Runs Lib.Tiles FreeList

section Tiles

variable {ucHeap n w k m : ℕ} {ts us vs rest : List Tile}

/-- A size that keeps the blocks behind it aligned. -/
def Fits (n : ℕ) : Prop := 0 < n ∧ portByteAlignment ∣ n

/-- Tiles from end to end of the heap, with no two free ones side by side. -/
structure Layout (ucHeap : ℕ) (ts : List Tile) : Prop where
  total : alignedHeap ucHeap + total ts = heapEnd ucHeap
  fits : ∀ t ∈ ts, Fits t.size
  apart : ts.IsChain Apart

/-- Of a free tile in front of `vs` so much is taken that what is asked for fits in, and the
rest of the tiles is left. -/
structure Cut (w k : ℕ) (vs : List Tile) (m : ℕ) (rest : List Tile) : Prop where
  enough : w ≤ m
  le : m ≤ k
  fits : Fits m
  taken : ∀ a, spans true (a + m) rest = spans true (a + k) vs
  total : m + Lib.Tiles.total rest = k + Lib.Tiles.total vs
  bytes : m + amount false rest = k + amount false vs
  rest_fits : ∀ t ∈ rest, Fits t.size
  apart : rest.IsChain Apart

theorem Fits.add {m n : ℕ} (hm : Fits m) (hn : Fits n) : Fits (m + n) :=
  ⟨Nat.add_pos_left hm.1 n, Nat.dvd_add hm.2 hn.2⟩

theorem dvd_total (h : ∀ t ∈ ts, Fits t.size) : portByteAlignment ∣ Lib.Tiles.total ts := by
  induction ts with
  | nil => exact Nat.dvd_zero _
  | cons t ts ih =>
    obtain ⟨ht, hts⟩ := List.forall_mem_cons.mp h
    rw [total_cons]
    exact Nat.dvd_add ht.2 (ih hts)

theorem length_spans_le {b : Bool} {a : ℕ} (h : ∀ t ∈ ts, Fits t.size) :
    (spans b a ts).length ≤ Lib.Tiles.total ts := by
  induction ts generalizing a with
  | nil => exact Nat.le_refl _
  | cons t ts ih =>
    obtain ⟨ht, hts⟩ := List.forall_mem_cons.mp h
    have hle := ih (a := a + t.size) hts
    have hpos := ht.1
    rw [total_cons]
    by_cases hb : t.taken = b
    · rw [spans_same hb, List.length_cons]
      omega
    · rw [spans_other hb]
      omega

theorem dvd_alignedHeap (ucHeap : ℕ) : portByteAlignment ∣ alignedHeap ucHeap := by
  rw [alignedHeap]
  split
  · exact Nat.dvd_mul_left ..
  · next h => exact Nat.dvd_of_mod_eq_zero (not_not.mp h)

theorem alignedHeap_bounds (ucHeap : ℕ) :
    ucHeap ≤ alignedHeap ucHeap ∧ alignedHeap ucHeap < heapEnd ucHeap ∧
      heapEnd ucHeap + xHeapStructSize ≤ ucHeap + configTotalHeapSize := by
  have hbase : ucHeap ≤ alignedHeap ucHeap ∧ alignedHeap ucHeap < ucHeap + 8 := by
    rw [alignedHeap, portByteAlignment]
    split <;> omega
  rw [heapEnd, portByteAlignment, xHeapStructSize, configTotalHeapSize]
  omega

theorem wantedSize_fits (h : 0 < wantedSize n) : Fits (wantedSize n) ∧
    n + xHeapStructSize ≤ wantedSize n ∧ 0 < n := by
  rw [wantedSize, xHeapStructSize, portByteAlignment] at h ⊢
  split at h
  · exact absurd h (Nat.lt_irrefl 0)
  · next hn =>
    rw [if_neg hn]
    dsimp only at h ⊢
    split at h
    · exact absurd h (Nat.lt_irrefl 0)
    · next hlt =>
      rw [if_neg hlt, Fits, portByteAlignment]
      omega

/-- No other block has the address of a tile. -/
theorem addr_ne {b : Bool} {a : ℕ} (hm : 0 < m) (hus : ∀ t ∈ us, Fits t.size) :
    ∀ c ∈ spans b a us ++ spans b (a + Lib.Tiles.total us + m) vs,
      c.addr ≠ a + Lib.Tiles.total us := by
  intro c hc heq
  rcases List.mem_append.mp hc with hc | hc
  · obtain ⟨xs, ys, rfl, haddr⟩ := mem_spans hc
    have hpos := (hus ⟨b, c.size⟩ (by simp)).1
    rw [total_append, total_cons] at heq
    dsimp only at heq hpos
    omega
  · have hle := (spans_bounds hc).1
    omega

theorem size_pos {b : Bool} {a : ℕ} {c : Block} (h : ∀ t ∈ ts, Fits t.size)
    (hc : c ∈ spans b a ts) : 0 < c.size := by
  obtain ⟨xs, ys, rfl, -⟩ := mem_spans hc
  exact (h ⟨b, c.size⟩ (by simp)).1

theorem addr_lt_of_before {b : Bool} {a : ℕ} (h : ∀ t ∈ ts, Fits t.size) :
    (spans b a ts).Pairwise fun c d ↦ c.addr < d.addr := by
  refine spans_sorted.imp_of_mem fun {c d} hc _ hle ↦ ?_
  exact (Nat.lt_add_of_pos_right (size_pos h hc)).trans_le hle

theorem addr_ne_of_kinds {a : ℕ} {b c : Block} (h : ∀ t ∈ ts, Fits t.size)
    (hb : b ∈ spans true a ts) (hc : c ∈ spans false a ts) : b.addr ≠ c.addr := by
  have hposb := size_pos h hb
  have hposc := size_pos h hc
  rcases spans_disjoint (by simp) hb hc with hle | hle
  · rw [Block.Before] at hle
    omega
  · rw [Block.Before] at hle
    omega

theorem cut_whole (hk : Fits k) (hw : w ≤ k) (hvs : ∀ t ∈ vs, Fits t.size)
    (hapart : vs.IsChain Apart) : Cut w k vs k vs :=
  ⟨hw, Nat.le_refl k, hk, fun _ ↦ rfl, rfl, rfl, hvs, hapart⟩

theorem cut_split (hk : Fits k) (hw : Fits w) (hlt : w < k) (hvs : ∀ t ∈ vs, Fits t.size)
    (hapart : (⟨false, k⟩ :: vs).IsChain Apart) : Cut w k vs w (⟨false, k - w⟩ :: vs) := by
  have hrest : Fits (k - w) := ⟨Nat.sub_pos_of_lt hlt, Nat.dvd_sub hk.2 hw.2⟩
  have hsum : w + (k - w) = k := Nat.add_sub_cancel' (Nat.le_of_lt hlt)
  obtain ⟨hhead, hapart⟩ := List.isChain_cons.mp hapart
  refine ⟨Nat.le_refl w, Nat.le_of_lt hlt, hw, fun a ↦ ?_, ?_, ?_,
    List.forall_mem_cons.mpr ⟨hrest, hvs⟩, List.isChain_cons.mpr ⟨fun u hu ↦ hhead u hu, hapart⟩⟩
  · rw [spans_other Bool.false_ne_true, Nat.add_assoc, hsum]
  · rw [total_cons, ← Nat.add_assoc, hsum]
  · rw [amount, if_pos rfl, ← Nat.add_assoc, hsum]

theorem Layout.cut (h : Layout ucHeap (us ++ ⟨false, k⟩ :: vs)) (hcut : Cut w k vs m rest) :
    Layout ucHeap (us ++ ⟨true, m⟩ :: rest) := by
  obtain ⟨hus, -⟩ := List.forall_mem_append.mp h.fits
  obtain ⟨hcus, -, -⟩ := List.isChain_append.mp h.apart
  refine ⟨?_, ?_, ?_⟩
  · have hsum := h.total
    have hrest := hcut.total
    rw [total_append, total_cons] at hsum ⊢
    dsimp only at hsum ⊢
    omega
  · exact List.forall_mem_append.mpr ⟨hus, List.forall_mem_cons.mpr ⟨hcut.fits, hcut.rest_fits⟩⟩
  · refine List.isChain_append.mpr
      ⟨hcus, List.isChain_cons.mpr ⟨fun u _ ↦ .inl rfl, hcut.apart⟩, ?_⟩
    intro t _ u hu
    cases hu
    exact .inr rfl

theorem Layout.merge (h : Layout ucHeap (us ++ ⟨true, m⟩ :: vs)) :
    Layout ucHeap (merge us m vs) := by
  obtain ⟨hus, hmvs⟩ := List.forall_mem_append.mp h.fits
  obtain ⟨hm, hvs⟩ := List.forall_mem_cons.mp hmvs
  obtain ⟨hcus, hcvs, -⟩ := List.isChain_append.mp h.apart
  refine ⟨?_, forall_merge (fun _ _ ↦ Fits.add) hm hus hvs,
    isChain_merge m hcus (List.isChain_cons.mp hcvs).2⟩
  have hsum := h.total
  rw [total_append, total_cons] at hsum
  rw [total_merge]
  dsimp only at hsum
  omega

end Tiles

section Steps

variable {ucHeap a e n w k m p : ℕ} {s : State} {b : Block} {ts us vs xs ys : List Tile}

/-- The headers and the variables are those of a layout. -/
structure Tiled (ucHeap : ℕ) (s : State) (ts : List Tile) : Prop where
  linked : Segment s.link s.xStart (spans false (alignedHeap ucHeap) ts) (some (heapEnd ucHeap))
  headers : ∀ b ∈ spans true (alignedHeap ucHeap) ts, s.link b.addr = ⟨none, b.size, true⟩
  last : s.link (heapEnd ucHeap) = ⟨none, 0, false⟩
  pxEnd : s.pxEnd = some (heapEnd ucHeap)
  layout : Layout ucHeap ts
  bytes : s.xFreeBytesRemaining = amount false ts
  least : s.xMinimumEverFreeBytesRemaining ≤ s.xFreeBytesRemaining

theorem tiled_init (ucHeap : ℕ) (s : State) : Tiled ucHeap (prvHeapInit ucHeap s)
    [⟨false, heapEnd ucHeap - alignedHeap ucHeap⟩] := by
  obtain ⟨-, hlt, -⟩ := alignedHeap_bounds ucHeap
  have hdvd : portByteAlignment ∣ heapEnd ucHeap - alignedHeap ucHeap :=
    Nat.dvd_sub (Nat.dvd_mul_left ..) (dvd_alignedHeap ucHeap)
  refine ⟨⟨rfl, ?_, ?_, ?_⟩, fun b hb ↦ absurd hb List.not_mem_nil, ?_, rfl,
    ⟨?_, fun t ht ↦ ?_, List.isChain_singleton _⟩, ?_, Nat.le_refl _⟩
  · simp [prvHeapInit]
  · simp [prvHeapInit]
  · simp [prvHeapInit, Segment]
  · simp [prvHeapInit, Function.update_of_ne (Nat.ne_of_gt hlt)]
  · rw [total_cons, total_nil]
    dsimp only
    omega
  · rw [List.mem_singleton.mp ht]
    exact ⟨Nat.sub_pos_of_lt hlt, hdvd⟩
  · simp [prvHeapInit, amount]

/-- A block between tiles becomes free, and one with the free ones next to it. -/
theorem insert_tiles (hs : Segment s.link s.xStart
      (spans false a xs ++ spans false (a + total xs + n) ys) (some e))
    (he : a + total xs + n + total ys = e) (hn : 0 < n) (hxs : ∀ t ∈ xs, Fits t.size)
    (hys : ∀ t ∈ ys, Fits t.size) (hend : s.pxEnd = some e)
    (hsize : (s.link (a + total xs)).xBlockSize = n)
    (hfree : (s.link (a + total xs)).allocated = false)
    (hfuel : total xs < configTotalHeapSize) :
    ∃ link' x, prvInsertBlockIntoFreeList (a + total xs) s =
        some { s with link := link', xStart := x } ∧
      Segment link' x (spans false a (merge xs n ys)) (some e) ∧
      ∀ c, c ≠ a + total xs → (∀ d ∈ spans false a xs, c ≠ d.addr) → link' c = s.link c := by
  have hF : ∀ c ∈ spans false a xs, c.addr < a + total xs := fun c hc ↦
    (Nat.lt_add_of_pos_right (size_pos hxs hc)).trans_le (spans_bounds hc).2
  have hG : ∀ c ∈ spans false (a + total xs + n) ys, a + total xs < c.addr := fun c hc ↦
    (Nat.lt_add_of_pos_right hn).trans_le (spans_bounds hc).1
  have hGe : ∀ c ∈ spans false (a + total xs + n) ys, c.addr < e := fun c hc ↦
    he ▸ (Nat.lt_add_of_pos_right (size_pos hys hc)).trans_le (spans_bounds hc).2
  have hsorted : (spans false a xs ++ spans false (a + total xs + n) ys).Pairwise
      fun c d ↦ c.addr < d.addr := by
    refine List.pairwise_append.mpr ⟨addr_lt_of_before hxs, addr_lt_of_before hys, ?_⟩
    exact fun c hc d hd ↦ (hF c hc).trans (hG d hd)
  rw [← insert_spans a n (fun t ht ↦ (hxs t ht).1) fun t ht ↦ (hys t ht).1]
  exact prvInsertBlockIntoFreeList_eq hs hsorted hF hG (by omega) hGe hend hsize hfree
    ((length_spans_le hxs).trans_lt hfuel)

theorem Tiled.total_lt (h : Tiled ucHeap s (us ++ ts)) : total us < configTotalHeapSize := by
  have hsum := h.layout.total
  have hbounds := alignedHeap_bounds ucHeap
  have hpos : 0 < xHeapStructSize := by decide
  rw [total_append] at hsum
  omega

/-- A block that is freed becomes one with the free blocks next to it. -/
theorem Tiled.vPortFree (h : Tiled ucHeap s ts) (hb : b ∈ spans true (alignedHeap ucHeap) ts) :
    ∃ s' us vs, Heap.vPortFree (some (b.addr + xHeapStructSize)) s = some s' ∧
      ts = us ++ ⟨true, b.size⟩ :: vs ∧ b.addr = alignedHeap ucHeap + total us ∧
      Tiled ucHeap s' (merge us b.size vs) := by
  have hheader := h.headers b hb
  obtain ⟨us, vs, rfl, haddr⟩ := mem_spans hb
  obtain ⟨hus, hbvs⟩ := List.forall_mem_append.mp h.layout.fits
  obtain ⟨hfits, hvs⟩ := List.forall_mem_cons.mp hbvs
  have hsum := h.layout.total
  rw [total_append, total_cons, ← Nat.add_assoc, ← Nat.add_assoc] at hsum
  dsimp only at hfits hsum
  rw [haddr] at hheader
  let s₁ : State := { s with
    link := Function.update s.link (alignedHeap ucHeap + total us) ⟨none, b.size, false⟩
    xFreeBytesRemaining := s.xFreeBytesRemaining + b.size }
  have hself : s₁.link (alignedHeap ucHeap + total us) = ⟨none, b.size, false⟩ :=
    Function.update_self ..
  have hspans : spans false (alignedHeap ucHeap) (us ++ ⟨true, b.size⟩ :: vs) =
      spans false (alignedHeap ucHeap) us ++
        spans false (alignedHeap ucHeap + total us + b.size) vs := by
    rw [spans_append, spans_other Bool.true_eq_false.mp]
  have hlinked := h.linked
  rw [hspans] at hlinked
  obtain ⟨link', x, hinsert, hsegment, hframe⟩ := insert_tiles (s := s₁)
    (hlinked.congr fun c hc ↦ Function.update_of_ne (addr_ne hfits.1 hus c hc) ..) hsum hfits.1 hus
    hvs h.pxEnd (congrArg BlockLink.xBlockSize hself) (congrArg BlockLink.allocated hself)
    h.total_lt
  refine ⟨{ s₁ with link := link', xStart := x }, us, vs, ?_, rfl, haddr, hsegment,
    fun c hc ↦ ?_, ?_, h.pxEnd, h.layout.merge, ?_, h.least.trans (Nat.le_add_right ..)⟩
  · rw [Heap.vPortFree, haddr, Nat.add_sub_cancel, hheader, ← hinsert]
    exact if_neg (by simp)
  · rw [spans_true_merge] at hc
    have hne := addr_ne hfits.1 hus c hc
    have hold : c ∈ spans true (alignedHeap ucHeap) (us ++ ⟨true, b.size⟩ :: vs) := by
      rw [spans_append, spans_mk_same]
      rcases List.mem_append.mp hc with hc | hc
      · exact List.mem_append_left _ hc
      · exact List.mem_append_right _ (List.mem_cons_of_mem _ hc)
    refine (hframe c.addr hne fun d hd ↦ addr_ne_of_kinds h.layout.fits hold ?_).trans
      ((Function.update_of_ne hne ..).trans (h.headers c hold))
    rw [hspans]
    exact List.mem_append_left _ hd
  · have hne : heapEnd ucHeap ≠ alignedHeap ucHeap + total us := by
      have hpos := hfits.1
      omega
    refine (hframe _ hne fun d hd ↦ ?_).trans ((Function.update_of_ne hne ..).trans h.last)
    have hbounds := (spans_bounds hd).2
    have hpos := size_pos hus hd
    omega
  · have hbytes := h.bytes
    rw [amount_append, amount, if_neg (by simp)] at hbytes
    rw [amount_merge]
    change s.xFreeBytesRemaining + b.size = _
    omega

/-- What a block has too much is put back when it is large enough to be a block. -/
theorem split_eq (hs : Segment s.link s.xStart
      (spans false a us ++ spans false (a + total us + k) vs) (some e))
    (he : a + total us + k + total vs = e) (ha : portByteAlignment ∣ a)
    (hus : ∀ t ∈ us, Fits t.size) (hk : Fits k) (hvs : ∀ t ∈ vs, Fits t.size)
    (hapart : (⟨false, k⟩ :: vs).IsChain Apart) (hend : s.pxEnd = some e)
    (hsize : (s.link (a + total us)).xBlockSize = k) (hw : Fits w) (hwk : w ≤ k)
    (hfuel : total us + k ≤ configTotalHeapSize) :
    ∃ link' x m rest, split w (a + total us) s = some { s with link := link', xStart := x } ∧
      Cut w k vs m rest ∧ (link' (a + total us)).xBlockSize = m ∧
      Segment link' x (spans false a (us ++ ⟨true, m⟩ :: rest)) (some e) ∧
      ∀ c, c < a + total us ∨ a + total us + k ≤ c → (∀ d ∈ spans false a us, c ≠ d.addr) →
        link' c = s.link c := by
  rw [split, hsize]
  by_cases hsplit : k - w > heapMinimumBlockSize
  · have hlt : w < k := Nat.lt_of_sub_pos (Nat.zero_lt_of_lt hsplit)
    have hnew : (a + total us + w) % portByteAlignment = 0 :=
      Nat.mod_eq_zero_of_dvd (Nat.dvd_add (Nat.dvd_add ha (dvd_total hus)) hw.2)
    rw [if_pos hsplit, if_neg (not_not.mpr hnew)]
    have htotal : a + total (us ++ [⟨true, w⟩]) = a + total us + w := by
      rw [total_append, total_cons, total_nil, Nat.add_zero, Nat.add_assoc]
    have hrest : a + total us + w + (k - w) = a + total us + k := by
      rw [Nat.add_assoc, Nat.add_sub_cancel' hwk]
    have hspans : spans false a (us ++ [⟨true, w⟩]) = spans false a us := by
      rw [spans_append, spans_other Bool.true_eq_false.mp, spans_nil, List.append_nil]
    have hxs : ∀ t ∈ us ++ [⟨true, w⟩], Fits t.size := by
      refine List.forall_mem_append.mpr ⟨hus, fun t ht ↦ ?_⟩
      rw [List.mem_singleton.mp ht]
      exact hw
    let s₁ := (s.setSize (a + total us + w) (k - w)).setSize (a + total us) w
    have hother {c : ℕ} (hc : c ≠ a + total us) (hc' : c ≠ a + total us + w) :
        s₁.link c = s.link c :=
      (Function.update_of_ne hc ..).trans (Function.update_of_ne hc' ..)
    have hself : (s₁.link (a + total us + w)).xBlockSize = k - w ∧
        (s₁.link (a + total us + w)).allocated = false := by
      have hne : a + total us + w ≠ a + total us := by
        have hpos := hw.1
        omega
      simp only [s₁, State.setSize, Function.update_of_ne hne, Function.update_self, and_self]
    have hs₁ : Segment s₁.link s₁.xStart (spans false a us ++ spans false (a + total us + k) vs)
        (some e) := by
      refine hs.congr fun c hc ↦ hother (addr_ne hk.1 hus c hc) ?_
      rcases List.mem_append.mp hc with hc | hc
      · have hbounds := (spans_bounds hc).2
        have hpos := size_pos hus hc
        omega
      · have hbounds := (spans_bounds hc).1
        omega
    rw [← hspans, ← hrest, ← htotal] at hs₁
    rw [← htotal] at hself
    obtain ⟨link', x, hinsert, hsegment, hframe⟩ := insert_tiles hs₁ (by rw [htotal, hrest, he])
      (Nat.sub_pos_of_lt hlt) hxs hvs hend hself.1 hself.2
      (by rw [total_append, total_cons, total_nil]; dsimp only; omega)
    obtain ⟨hhead, -⟩ := List.isChain_cons.mp hapart
    rw [merge_taken w fun t ht ↦ (hhead t ht).resolve_left Bool.false_ne_true] at hsegment
    rw [hspans, htotal] at hframe
    refine ⟨link', x, w, ⟨false, k - w⟩ :: vs, ?_, cut_split hk hw hlt hvs hapart, ?_, hsegment,
      fun c hc hc' ↦ ?_⟩
    · rw [htotal] at hinsert
      exact hinsert
    · rw [hframe]
      · simp only [s₁, State.setSize, Function.update_self]
      · have hpos := hw.1
        omega
      · intro d hd
        have hin := List.mem_append_left (spans false (a + total us + k) vs) hd
        exact (addr_ne hk.1 hus d hin).symm
    · rw [hframe c (by omega) hc', hother (by omega) (by omega)]
  · rw [if_neg hsplit]
    obtain ⟨-, hcvs⟩ := List.isChain_cons.mp hapart
    refine ⟨s.link, s.xStart, k, vs, rfl, cut_whole hk hwk hvs hcvs, hsize, ?_, fun _ _ _ ↦ rfl⟩
    rw [spans_append, spans_other Bool.true_eq_false.mp]
    exact hs

/-- A free block is taken out of the list and belongs to the application. -/
theorem Tiled.allocate (h : Tiled ucHeap s (us ++ ⟨false, k⟩ :: vs)) (hw : Fits w) (hwk : w ≤ k) :
    ∃ s' m rest, allocate w (lastOf none (spans false (alignedHeap ucHeap) us))
        (alignedHeap ucHeap + total us) s =
          some (alignedHeap ucHeap + total us + xHeapStructSize, s') ∧
      Cut w k vs m rest ∧ Tiled ucHeap s' (us ++ ⟨true, m⟩ :: rest) := by
  obtain ⟨hus, hkvs⟩ := List.forall_mem_append.mp h.layout.fits
  obtain ⟨hk, hvs⟩ := List.forall_mem_cons.mp hkvs
  obtain ⟨-, hapart, -⟩ := List.isChain_append.mp h.layout.apart
  have hsum := h.layout.total
  rw [total_append, total_cons, ← Nat.add_assoc, ← Nat.add_assoc] at hsum
  dsimp only at hk hsum
  have hlinked := h.linked
  have hsorted := addr_lt_of_before h.layout.fits (b := false) (a := alignedHeap ucHeap)
  rw [spans_append, spans_mk_same] at hlinked hsorted
  obtain ⟨r, hbefore, hr, hsize, hfree, hbehind⟩ := segment_append.mp hlinked
  subst hr
  have hnext : s.next (lastOf none (spans false (alignedHeap ucHeap) us)) =
      some (alignedHeap ucHeap + total us) := next_lastOf hbefore
  obtain ⟨link₁, x₁, hunlink, hs₁, hframe₁⟩ := unlink_eq hlinked hsorted
  have hbelow : ∀ d ∈ spans false (alignedHeap ucHeap) us, d.addr < alignedHeap ucHeap + total us :=
    fun d hd ↦ (Nat.lt_add_of_pos_right (size_pos hus hd)).trans_le (spans_bounds hd).2
  have hsize₁ : (link₁ (alignedHeap ucHeap + total us)).xBlockSize = k := by
    rw [hframe₁ _ fun d hd ↦ Nat.ne_of_gt (hbelow d hd)]
    exact hsize
  have hbounds := alignedHeap_bounds ucHeap
  have hfuel : total us + k ≤ configTotalHeapSize := by omega
  obtain ⟨link₂, x₂, m, rest, hsplit, hcut, hm, hs₂, hframe₂⟩ := split_eq (s := { s with
    link := link₁, xStart := x₁ }) hs₁ hsum (dvd_alignedHeap ucHeap) hus hk hvs hapart h.pxEnd
    hsize₁ hw hwk hfuel
  have hreturn : (alignedHeap ucHeap + total us + xHeapStructSize) % portByteAlignment = 0 :=
    Nat.mod_eq_zero_of_dvd (Nat.dvd_add (Nat.dvd_add (dvd_alignedHeap ucHeap) (dvd_total hus))
      (Nat.dvd_refl _))
  have hframe {c : ℕ}
      (hc : c < alignedHeap ucHeap + total us ∨ alignedHeap ucHeap + total us + k ≤ c)
      (hc' : ∀ d ∈ spans false (alignedHeap ucHeap) us, c ≠ d.addr) : link₂ c = s.link c :=
    (hframe₂ c hc hc').trans (hframe₁ c hc')
  refine ⟨{ s with
    link := Function.update link₂ (alignedHeap ucHeap + total us) ⟨none, m, true⟩
    xStart := x₂
    xFreeBytesRemaining := s.xFreeBytesRemaining - m
    xMinimumEverFreeBytesRemaining :=
      min (s.xFreeBytesRemaining - m) s.xMinimumEverFreeBytesRemaining }, m, rest, ?_, hcut, ?_, ?_,
    ?_, h.pxEnd, h.layout.cut hcut, ?_, Nat.min_le_left ..⟩
  · rw [Heap.allocate, hnext, hunlink]
    simp only [Option.bind_eq_bind, Option.bind_some, hsplit, hm]
    exact if_neg (not_not.mpr hreturn)
  · refine hs₂.congr fun c hc ↦ Function.update_of_ne ?_ ..
    rw [spans_append, spans_other Bool.true_eq_false.mp] at hc
    exact addr_ne hcut.fits.1 hus c hc
  · intro c hc
    have hheaders := h.headers
    rw [spans_append, spans_other Bool.false_ne_true] at hheaders
    rw [spans_append, spans_mk_same, hcut.taken] at hc
    rcases List.mem_append.mp hc with hc | hc
    · have hlt := (Nat.lt_add_of_pos_right (size_pos hus hc)).trans_le (spans_bounds hc).2
      have hsame := hframe (.inl hlt) fun d hd ↦ addr_ne_of_kinds hus hc hd
      exact (Function.update_of_ne (Nat.ne_of_lt hlt) ..).trans
        (hsame.trans (hheaders c (List.mem_append_left _ hc)))
    · rcases List.mem_cons.mp hc with rfl | hc
      · exact Function.update_self ..
      · have hle := (spans_bounds hc).1
        have hne : c.addr ≠ alignedHeap ucHeap + total us := by
          have hpos := hk.1
          omega
        refine (Function.update_of_ne hne ..).trans ((hframe (.inr hle) fun d hd ↦ ?_).trans
          (hheaders c (List.mem_append_right _ hc)))
        have hlt := hbelow d hd
        omega
  · have hne : heapEnd ucHeap ≠ alignedHeap ucHeap + total us := by
      have hpos := hk.1
      omega
    have hsame : link₂ (heapEnd ucHeap) = s.link (heapEnd ucHeap) := by
      refine hframe (.inr (by omega)) fun d hd ↦ ?_
      have hlt := hbelow d hd
      omega
    exact (Function.update_of_ne hne ..).trans (hsame.trans h.last)
  · have hbytes := h.bytes
    have hrest := hcut.bytes
    rw [amount_append, amount, if_pos rfl] at hbytes
    rw [amount_append, amount, if_neg (by simp)]
    dsimp only at hbytes ⊢
    omega

theorem size_le_amount (hb : b ∈ spans false a ts) : b.size ≤ amount false ts := by
  obtain ⟨xs, ys, rfl, -⟩ := mem_spans hb
  rw [amount_append, amount, if_pos rfl]
  dsimp only
  omega

/-- A block is handed out if one is large enough, and else nothing changes. -/
theorem Tiled.pvPortMalloc (h : Tiled ucHeap s ts) (n : ℕ) :
    (∃ us k vs m rest s', ts = us ++ ⟨false, k⟩ :: vs ∧ Cut (wantedSize n) k vs m rest ∧
      0 < wantedSize n ∧ Tiled ucHeap s' (us ++ ⟨true, m⟩ :: rest) ∧
      Heap.pvPortMalloc ucHeap n s =
        some (some (alignedHeap ucHeap + total us + xHeapStructSize), s')) ∨
    Heap.pvPortMalloc ucHeap n s = some (none, s) ∧ (0 < wantedSize n →
      ∀ b ∈ spans false (alignedHeap ucHeap) ts, b.size < wantedSize n) := by
  have hstart : (if s.pxEnd = none then prvHeapInit ucHeap s else s) = s :=
    if_neg (by simp [h.pxEnd])
  rw [Heap.pvPortMalloc, hstart]
  dsimp only
  split
  · next hvalid =>
    obtain ⟨q, hq⟩ := h.linked.exists_some
    have hlinked := h.linked
    rw [hq] at hlinked
    have hbounds := alignedHeap_bounds ucHeap
    have hsum := h.layout.total
    have hpos : 0 < xHeapStructSize := by decide
    have hsearch := searchLoop_eq (i := none) hlinked h.last hvalid.2.1
      ((length_spans_le h.layout.fits).trans_lt (show _ < configTotalHeapSize by omega))
    rw [hq]
    simp only [Option.bind_eq_bind, Option.bind_some, hsearch]
    cases hfound : search (wantedSize n) (spans false (alignedHeap ucHeap) ts) with
    | none =>
      refine .inr ⟨?_, fun _ ↦ search_none.mp hfound⟩
      exact if_neg (not_not.mpr h.pxEnd.symm)
    | some found =>
      obtain ⟨bs, b, cs⟩ := found
      obtain ⟨hspans, hle⟩ := search_some hfound
      obtain ⟨us, vs, rfl, haddr, rfl, -⟩ := spans_split hspans
      obtain ⟨s', m, rest, hallocate, hcut, htiled⟩ := h.allocate (wantedSize_fits hvalid.2.1).1 hle
      refine .inl ⟨us, b.size, vs, m, rest, s', rfl, hcut, hvalid.2.1, htiled, ?_⟩
      have hne : some b.addr ≠ s.pxEnd := by
        rw [h.pxEnd, haddr]
        intro heq
        have heq := Option.some.inj heq
        have hb := (h.layout.fits ⟨false, b.size⟩ (by simp)).1
        rw [total_append, total_cons] at hsum
        dsimp only at hsum hb
        omega
      dsimp only
      rw [if_pos hne, haddr, hallocate]
      rfl
  · next hvalid =>
    refine .inr ⟨rfl, fun hpos b hb ↦ ?_⟩
    have hle := size_le_amount hb
    have hbound := (spans_bounds hb).2
    have hbounds := alignedHeap_bounds ucHeap
    have hsum := h.layout.total
    have hbytes := h.bytes
    have hbase := (spans_bounds hb).1
    have hsize : b.size < 2 ^ 31 := by
      rw [configTotalHeapSize] at hbounds
      omega
    omega

end Steps

section Runs

variable {ucHeap : ℕ} {u u' : Used} {b c : Block} {ts : List Tile}

/-- The tiles that are taken are those of the pointers that the application has. -/
structure Sound (ucHeap : ℕ) (u : Used) (ts : List Tile) : Prop where
  tiled : Tiled ucHeap u.heap ts
  live : ∀ x ∈ u.live, ∃ b ∈ spans true (alignedHeap ucHeap) ts,
    x.1 = b.addr + xHeapStructSize ∧ x.2 + xHeapStructSize ≤ b.size
  blocks : ∀ b ∈ spans true (alignedHeap ucHeap) ts, ∃ n, (b.addr + xHeapStructSize, n) ∈ u.live
  nodup : (u.live.map Prod.fst).Nodup

/-- Until the first call of `pvPortMalloc` there is no heap. -/
def Inv (ucHeap : ℕ) (u : Used) : Prop :=
  u.heap.pxEnd = none ∧ u.live = [] ∨ ∃ ts, Sound ucHeap u ts

theorem Sound.malloc (h : Sound ucHeap u ts) (n : ℕ) :
    ∃ u' ts', step ucHeap u (.malloc n) = some u' ∧ Sound ucHeap u' ts' := by
  obtain ⟨us, k, vs, m, rest, s', rfl, hcut, hpos, htiled, heq⟩ | ⟨heq, -⟩ :=
    h.tiled.pvPortMalloc n
  · obtain ⟨hus, hkvs⟩ := List.forall_mem_append.mp h.tiled.layout.fits
    obtain ⟨hk, -⟩ := List.forall_mem_cons.mp hkvs
    have hold : spans true (alignedHeap ucHeap) (us ++ ⟨false, k⟩ :: vs) =
        spans true (alignedHeap ucHeap) us ++
          spans true (alignedHeap ucHeap + total us + k) vs := by
      rw [spans_append, spans_other Bool.false_ne_true]
    have hnew : spans true (alignedHeap ucHeap) (us ++ ⟨true, m⟩ :: rest) =
        spans true (alignedHeap ucHeap) us ++ ⟨alignedHeap ucHeap + total us, m⟩ ::
          spans true (alignedHeap ucHeap + total us + k) vs := by
      rw [spans_append, spans_mk_same, hcut.taken]
    have hmem (b : Block) : b ∈ spans true (alignedHeap ucHeap) (us ++ ⟨true, m⟩ :: rest) ↔
        b = ⟨alignedHeap ucHeap + total us, m⟩ ∨
          b ∈ spans true (alignedHeap ucHeap) (us ++ ⟨false, k⟩ :: vs) := by
      rw [hold, hnew, List.mem_append, List.mem_cons, or_left_comm, ← List.mem_append]
    have hne : ∀ b ∈ spans true (alignedHeap ucHeap) (us ++ ⟨false, k⟩ :: vs),
        b.addr ≠ alignedHeap ucHeap + total us := hold ▸ addr_ne hk.1 hus
    refine ⟨⟨s', (alignedHeap ucHeap + total us + xHeapStructSize, n) :: u.live⟩,
      us ++ ⟨true, m⟩ :: rest, ?_, htiled, ?_, fun b hb ↦ ?_, ?_⟩
    · rw [step, heq]
      rfl
    · refine List.forall_mem_cons.mpr ⟨⟨_, (hmem _).mpr (.inl rfl), rfl, ?_⟩, fun x hx ↦ ?_⟩
      · exact (wantedSize_fits hpos).2.1.trans hcut.enough
      · obtain ⟨b, hb, hx⟩ := h.live x hx
        exact ⟨b, (hmem b).mpr (.inr hb), hx⟩
    · rcases (hmem b).mp hb with rfl | hb
      · exact ⟨n, List.mem_cons_self ..⟩
      · obtain ⟨n', hn'⟩ := h.blocks b hb
        exact ⟨n', List.mem_cons_of_mem _ hn'⟩
    · rw [List.map_cons]
      refine List.nodup_cons.mpr ⟨fun hin ↦ ?_, h.nodup⟩
      obtain ⟨x, hx, heq⟩ := List.mem_map.mp hin
      obtain ⟨b, hb, hxb, -⟩ := h.live x hx
      refine hne b hb (Nat.add_right_cancel (m := xHeapStructSize) ?_)
      rw [← hxb, heq]
  · refine ⟨u, ts, ?_, h⟩
    rw [step, heq]
    rfl

theorem Sound.free (h : Sound ucHeap u ts) {pv : Option ℕ} (hpv : ∀ p ∈ pv, ∃ n, (p, n) ∈ u.live) :
    ∃ u' ts', step ucHeap u (.free pv) = some u' ∧ Sound ucHeap u' ts' := by
  cases pv with
  | none =>
    refine ⟨u, ts, ?_, h⟩
    simp [step, vPortFree]
  | some p =>
    obtain ⟨n, hn⟩ := hpv p rfl
    obtain ⟨b, hb, hp, -⟩ := h.live _ hn
    obtain rfl : p = b.addr + xHeapStructSize := hp
    obtain ⟨s', us, vs, heq, rfl, haddr, htiled⟩ := h.tiled.vPortFree hb
    obtain ⟨hus, hbvs⟩ := List.forall_mem_append.mp h.tiled.layout.fits
    obtain ⟨hfits, -⟩ := List.forall_mem_cons.mp hbvs
    have hold (c : Block) : c ∈ spans true (alignedHeap ucHeap) (us ++ ⟨true, b.size⟩ :: vs) ↔
        c = b ∨ c ∈ spans true (alignedHeap ucHeap) (merge us b.size vs) := by
      rw [spans_true_merge, spans_append, spans_mk_same, List.mem_append, List.mem_cons,
        or_left_comm, ← List.mem_append, ← haddr]
    have hne : ∀ c ∈ spans true (alignedHeap ucHeap) (merge us b.size vs), c.addr ≠ b.addr := by
      rw [spans_true_merge, haddr]
      exact addr_ne hfits.1 hus
    refine ⟨_, merge us b.size vs, by rw [step, heq]; rfl, htiled, fun x hx ↦ ?_, fun c hc ↦ ?_, ?_⟩
    · obtain ⟨hx, hxp⟩ := List.mem_filter.mp hx
      obtain ⟨c, hc, hxc, hle⟩ := h.live x hx
      refine ⟨c, ((hold c).mp hc).resolve_left ?_, hxc, hle⟩
      rintro rfl
      simp [hxc] at hxp
    · obtain ⟨n', hn'⟩ := h.blocks c ((hold c).mpr (.inr hc))
      refine ⟨n', List.mem_filter.mpr ⟨hn', ?_⟩⟩
      have hcb := hne c hc
      simp [hcb]
    · exact h.nodup.sublist (List.filter_sublist.map Prod.fst)

theorem Sound.write (h : Sound ucHeap u ts) {p n a : ℕ} (hlive : (p, n) ∈ u.live) (hp : p ≤ a)
    (hle : a + xHeapStructSize ≤ p + n) (l : BlockLink) :
    Sound ucHeap ⟨{ u.heap with link := Function.update u.heap.link a l }, u.live⟩ ts := by
  obtain ⟨b, hb, hpb, hn⟩ := h.live _ hlive
  dsimp only at hpb hn
  have hpos : 0 < xHeapStructSize := by decide
  have hin : b.addr < a ∧ a < b.addr + b.size := by omega
  have hout {c : Block} (hbc : b.Before c ∨ c.Before b) (hc : 0 < c.size) : c.addr ≠ a := by
    rw [Block.Before, Block.Before] at hbc
    omega
  refine ⟨⟨h.tiled.linked.congr fun c hc ↦ Function.update_of_ne ?_ .., fun c hc ↦ ?_, ?_,
    h.tiled.pxEnd, h.tiled.layout, h.tiled.bytes, h.tiled.least⟩, h.live, h.blocks, h.nodup⟩
  · exact hout (spans_disjoint (by simp) hb hc) (size_pos h.tiled.layout.fits hc)
  · refine (Function.update_of_ne ?_ ..).trans (h.tiled.headers c hc)
    by_cases hbc : b = c
    · subst hbc
      exact Nat.ne_of_lt hin.1
    · exact hout (before_or_before hb hc hbc) (size_pos h.tiled.layout.fits hc)
  · refine (Function.update_of_ne ?_ ..).trans h.tiled.last
    have hbound := (spans_bounds hb).2
    have hsum := h.tiled.layout.total
    omega

/-- The first call sets up the heap. -/
theorem pvPortMalloc_init {s : State} (h : s.pxEnd = none) (n : ℕ) :
    pvPortMalloc ucHeap n s = pvPortMalloc ucHeap n (prvHeapInit ucHeap s) := by
  have hend : (prvHeapInit ucHeap s).pxEnd ≠ none := Option.some_ne_none _
  rw [pvPortMalloc, pvPortMalloc, if_pos h, if_neg hend]

theorem sound_init (h : u.live = []) : Sound ucHeap ⟨prvHeapInit ucHeap u.heap, u.live⟩
    [⟨false, heapEnd ucHeap - alignedHeap ucHeap⟩] :=
  ⟨tiled_init ucHeap u.heap, by simp [h], fun b hb ↦ absurd hb List.not_mem_nil, by simp [h]⟩

theorem Inv.step (h : Inv ucHeap u) (l : Call) (hl : Legal u l) :
    ∃ u', Heap.step ucHeap u l = some u' ∧ Inv ucHeap u' := by
  rcases h with ⟨hnone, hlive⟩ | ⟨ts, h⟩
  · cases l with
    | malloc n =>
      obtain ⟨u', ts', heq, hsound⟩ := (sound_init hlive).malloc n
      refine ⟨u', ?_, .inr ⟨ts', hsound⟩⟩
      rw [Heap.step, pvPortMalloc_init hnone]
      exact heq
    | free pv =>
      cases pv with
      | none =>
        refine ⟨u, ?_, .inl ⟨hnone, hlive⟩⟩
        simp [Heap.step, vPortFree]
      | some p =>
        obtain ⟨n, hn⟩ := hl p rfl
        rw [hlive] at hn
        cases hn
    | write a l =>
      obtain ⟨p, n, hn, -⟩ := hl
      rw [hlive] at hn
      cases hn
  · cases l with
    | malloc n =>
      obtain ⟨u', ts', heq, hsound⟩ := h.malloc n
      exact ⟨u', heq, .inr ⟨ts', hsound⟩⟩
    | free pv =>
      obtain ⟨u', ts', heq, hsound⟩ := h.free hl
      exact ⟨u', heq, .inr ⟨ts', hsound⟩⟩
    | write a l =>
      obtain ⟨p, n, hn, hp, hle⟩ := hl
      exact ⟨_, rfl, .inr ⟨ts, h.write hn hp hle l⟩⟩

theorem Sound.disjoint (h : Sound ucHeap u ts) :
    u.live.Pairwise fun x y ↦ x.1 + x.2 ≤ y.1 ∨ y.1 + y.2 ≤ x.1 := by
  refine (List.pairwise_map.mp h.nodup).imp_of_mem fun {x y} hx hy hne ↦ ?_
  obtain ⟨b, hb, hxb, hxle⟩ := h.live x hx
  obtain ⟨c, hc, hyc, hyle⟩ := h.live y hy
  have hbc : b ≠ c := by
    rintro rfl
    exact hne (hxb.trans hyc.symm)
  have hor := before_or_before hb hc hbc
  rw [Block.Before, Block.Before] at hor
  omega

theorem Sound.within (h : Sound ucHeap u ts) {p n : ℕ} (hp : (p, n) ∈ u.live) :
    portByteAlignment ∣ p ∧ ucHeap ≤ p ∧ p + n ≤ ucHeap + configTotalHeapSize := by
  obtain ⟨b, hb, hpb, hle⟩ := h.live _ hp
  dsimp only at hpb hle
  have hbounds := alignedHeap_bounds ucHeap
  have hsum := h.tiled.layout.total
  have hb' := spans_bounds hb
  obtain ⟨us, vs, rfl, haddr⟩ := mem_spans hb
  refine ⟨?_, by omega, by omega⟩
  rw [hpb, haddr]
  exact Nat.dvd_add (Nat.dvd_add (dvd_alignedHeap ucHeap)
    (dvd_total (List.forall_mem_append.mp h.tiled.layout.fits).1)) (Nat.dvd_refl _)

/-- When the application has no pointer left, the heap is one free block again. -/
theorem Sound.whole (h : Sound ucHeap u ts) (hlive : u.live = []) :
    ts = [⟨false, heapEnd ucHeap - alignedHeap ucHeap⟩] := by
  have hsum := h.tiled.layout.total
  have hbounds := alignedHeap_bounds ucHeap
  have hne : ts ≠ [] := by
    rintro rfl
    rw [total_nil] at hsum
    omega
  have hfree : ∀ t ∈ ts, t.taken = false := by
    intro t ht
    by_contra htaken
    obtain ⟨xs, ys, rfl⟩ := List.append_of_mem ht
    obtain ⟨n, hn⟩ := h.blocks ⟨alignedHeap ucHeap + total xs, t.size⟩ (by
      rw [spans_append, spans_same (by simpa using htaken)]
      simp)
    rw [hlive] at hn
    cases hn
  rw [eq_singleton h.tiled.layout.apart hne hfree, ← hsum, Nat.add_sub_cancel_left]

/-- What fits in the heap is handed out when nothing else is. -/
theorem Sound.grants (h : Sound ucHeap u ts) (hlive : u.live = []) {n : ℕ}
    (hpos : 0 < wantedSize n) (hle : wantedSize n ≤ heapEnd ucHeap - alignedHeap ucHeap) :
    ∃ p s, pvPortMalloc ucHeap n u.heap = some (some p, s) := by
  obtain ⟨us, k, vs, m, rest, s', -, -, -, -, heq⟩ | ⟨-, hsmall⟩ := h.tiled.pvPortMalloc n
  · exact ⟨_, _, heq⟩
  · rw [h.whole hlive, spans_mk_same] at hsmall
    have hlt := hsmall hpos _ (List.mem_cons_self ..)
    dsimp only at hlt
    omega

/-- In every run the assertions hold and the loops end; what the application has is aligned, in
the heap and apart from one another; and once it has nothing, the heap is one block again, so
that every request is met that the heap can meet at all. -/
theorem heap_blocks_apart (ucHeap : ℕ) (link : ℕ → BlockLink) {calls : List Call}
    (hlegal : Along (step ucHeap) Legal (start link) calls) :
    ∃ u, run (step ucHeap) (start link) calls = some u ∧
      (u.live.Pairwise fun x y ↦ x.1 + x.2 ≤ y.1 ∨ y.1 + y.2 ≤ x.1) ∧
      (∀ p n, (p, n) ∈ u.live →
        portByteAlignment ∣ p ∧ ucHeap ≤ p ∧ p + n ≤ ucHeap + configTotalHeapSize) ∧
      (u.live = [] → u.heap.pxEnd ≠ none →
        u.heap.xStart = some (alignedHeap ucHeap) ∧
        u.heap.link (alignedHeap ucHeap) =
          ⟨some (heapEnd ucHeap), heapEnd ucHeap - alignedHeap ucHeap, false⟩ ∧
        u.heap.xFreeBytesRemaining = heapEnd ucHeap - alignedHeap ucHeap) ∧
      ∀ n, u.live = [] → 0 < wantedSize n →
        wantedSize n ≤ heapEnd ucHeap - alignedHeap ucHeap →
        ∃ p s, pvPortMalloc ucHeap n u.heap = some (some p, s) := by
  obtain ⟨u, hrun, hinv⟩ := run_enabled_along (fun u l hu hl ↦ Inv.step hu l hl)
    (show Inv ucHeap (start link) from .inl ⟨rfl, rfl⟩) hlegal
  refine ⟨u, hrun, ?_⟩
  rcases hinv with ⟨hnone, hlive⟩ | ⟨ts, h⟩
  · refine ⟨by simp [hlive], by simp [hlive], fun _ hend ↦ absurd hnone hend,
      fun n _ hpos hle ↦ ?_⟩
    rw [pvPortMalloc_init hnone]
    exact (sound_init hlive).grants hlive hpos hle
  · refine ⟨h.disjoint, fun p n hp ↦ h.within hp, fun hlive _ ↦ ?_, fun n hlive ↦ h.grants hlive⟩
    obtain rfl := h.whole hlive
    have hlinked := h.tiled.linked
    rw [spans_mk_same] at hlinked
    obtain ⟨hstart, hsize, hfree, hnext⟩ := hlinked
    refine ⟨hstart, ?_, ?_⟩
    · dsimp only at hsize hfree
      change (u.heap.link (alignedHeap ucHeap)).pxNextFreeBlock = _ at hnext
      rw [← hnext, ← hsize, ← hfree]
    · rw [h.tiled.bytes]
      simp [amount]

/-- Three blocks are handed out, and that in the middle is the last to be freed. -/
def threeBlocks : List Call :=
  [.malloc 100, .malloc 50, .malloc 20, .write 0x20000010 ⟨some 0, 7, true⟩,
    .free (some 0x20000008), .free (some 0x200000b8), .free (some 0x20000078)]

theorem three_blocks_freed : ∃ u,
    run (step 0x20000000) (start fun _ ↦ ⟨none, 0, false⟩) threeBlocks = some u ∧ u.live = [] ∧
      u.heap.xFreeBytesRemaining = 15352 := by
  have hlegal : Along (step 0x20000000) Legal (start fun _ ↦ ⟨none, 0, false⟩) threeBlocks :=
    along_cons trivial rfl <| along_cons trivial rfl <| along_cons trivial rfl <|
    along_cons ⟨0x20000008, 100, .tail _ (.tail _ (.head _)), by decide, by decide⟩ rfl <|
    along_cons (fun _ h ↦ Option.some.inj h ▸ ⟨100, .tail _ (.tail _ (.head _))⟩) rfl <|
    along_cons (fun _ h ↦ Option.some.inj h ▸ ⟨20, .head _⟩) rfl <|
    along_cons (fun _ h ↦ Option.some.inj h ▸ ⟨50, .head _⟩) rfl trivial
  obtain ⟨u, hrun, -, -, hwhole, -⟩ := heap_blocks_apart _ _ hlegal
  obtain rfl : _ = u := Option.some.inj hrun
  exact ⟨_, rfl, rfl, (hwhole rfl (Option.some_ne_none _)).2.2⟩

end Runs

end Tanenbaum.Kernel.Heap
