import Mathlib.Data.List.Chain
import Mathlib.Data.List.Nodup
import Mathlib.Logic.Function.Basic

namespace Tanenbaum.Lib.Rings

variable {ν : Type*}

/-- The forward and backward pointers of the nodes of doubly linked lists. -/
structure Links (ν : Type*) where
  next : ν → ν
  prev : ν → ν

namespace Links

def Linked (k : Links ν) (x y : ν) : Prop := k.next x = y ∧ k.prev y = x

section Link

variable [DecidableEq ν] {k : Links ν} {x y : ν}

/-- Point `x` and `y` at each other. -/
def link (k : Links ν) (x y : ν) : Links ν :=
  ⟨Function.update k.next x y, Function.update k.prev y x⟩

theorem linked_link (k : Links ν) (x y : ν) : (k.link x y).Linked x y :=
  ⟨Function.update_self .., Function.update_self ..⟩

theorem Linked.link {a b : ν} (h : k.Linked a b) (ha : a ≠ x) (hb : b ≠ y) :
    (k.link x y).Linked a b :=
  ⟨(Function.update_of_ne ha ..).trans h.1, (Function.update_of_ne hb ..).trans h.2⟩

/-- A path only depends on the pointers along it. -/
theorem isChain_link {w : List ν} (h : w.IsChain k.Linked) (hx : x ∉ w.dropLast)
    (hy : y ∉ w.tail) : w.IsChain (k.link x y).Linked := by
  induction w with
  | nil => exact .nil
  | cons a w ih =>
    cases w with
    | nil => exact .singleton a
    | cons b w =>
      rw [List.isChain_cons_cons] at h ⊢
      rw [List.dropLast_cons_cons, List.mem_cons, not_or] at hx
      rw [List.tail_cons, List.mem_cons, not_or] at hy
      exact ⟨h.1.link (Ne.symm hx.1) (Ne.symm hy.1), ih h.2 hx.2 hy.2⟩

end Link

end Links

/-- The nodes `l` in a ring that starts and ends at the marker `e`. -/
structure Ring (k : Links ν) (e : ν) (l : List ν) : Prop where
  nodup : (e :: l).Nodup
  path : (e :: (l ++ [e])).IsChain k.Linked

section Rings

variable {k : Links ν} {e n p q : ν} {a b l u v : List ν}

theorem Ring.empty (hnext : k.next e = e) (hprev : k.prev e = e) : Ring k e [] :=
  ⟨List.nodup_singleton e, List.isChain_pair.mpr ⟨hnext, hprev⟩⟩

/-- Around a place in the ring: the path up to `p`, the step to `q`, and the rest. -/
theorem Ring.at_gap (h : Ring k e (a ++ b)) (ha : e :: a = u ++ [p]) (hb : b ++ [e] = q :: v) :
    (u ++ [p]).IsChain k.Linked ∧ k.Linked p q ∧ (q :: v).IsChain k.Linked := by
  have hpath := h.path
  have hsplit : e :: (a ++ b ++ [e]) = u ++ p :: q :: v := by
    rw [List.append_assoc, ← List.cons_append, ha, hb]
    simp
  rw [hsplit, List.isChain_append_cons_cons] at hpath
  exact hpath

/-- What follows the last of the nodes in front of a place. -/
theorem Ring.next_gap (h : Ring k e (a ++ b)) (ha : e :: a = u ++ [p]) (hb : b ++ [e] = q :: v) :
    k.next p = q := (h.at_gap ha hb).2.1.1

theorem Ring.prev_gap (h : Ring k e (a ++ b)) (ha : e :: a = u ++ [p]) (hb : b ++ [e] = q :: v) :
    k.prev q = p := (h.at_gap ha hb).2.1.2

theorem Ring.of_gap (hnodup : (e :: (a ++ b)).Nodup) (ha : e :: a = u ++ [p])
    (hb : b ++ [e] = q :: v) (hfront : (u ++ [p]).IsChain k.Linked) (hgap : k.Linked p q)
    (hrest : (q :: v).IsChain k.Linked) : Ring k e (a ++ b) := by
  refine ⟨hnodup, ?_⟩
  have hsplit : e :: (a ++ b ++ [e]) = u ++ p :: q :: v := by
    rw [List.append_assoc, ← List.cons_append, ha, hb]
    simp
  rw [hsplit, List.isChain_append_cons_cons]
  exact ⟨hfront, hgap, hrest⟩

/-- The nodes of a place, apart from each other as the ring is. -/
structure Apart (u v : List ν) (p q : ν) : Prop where
  p_front : p ∉ u
  q_front : q ∉ (u ++ [p]).tail
  p_rest : p ∉ (q :: v).dropLast
  q_rest : q ∉ v

theorem Ring.apart (hnodup : (e :: (a ++ b)).Nodup) (ha : e :: a = u ++ [p])
    (hb : b ++ [e] = q :: v) : Apart u v p q := by
  have hfront : (u ++ [p] ++ b).Nodup := by rw [← ha]; exact hnodup
  have htail : (u ++ [p]).tail = a := by rw [← ha, List.tail_cons]
  have hdrop : (q :: v).dropLast = b := by rw [← hb, List.dropLast_concat]
  have hrest : (a ++ (q :: v)).Nodup := by
    rw [← hb, ← List.append_assoc]
    exact (List.perm_append_singleton e (a ++ b)).nodup_iff.mpr hnodup
  have hp : p ∈ u ++ [p] := List.mem_append_right _ (List.mem_singleton_self p)
  refine ⟨?_, ?_, ?_, ?_⟩
  · exact fun hmem ↦ List.disjoint_of_nodup_append (List.nodup_append.mp hfront).1 hmem
      (List.mem_singleton_self p)
  · rw [htail]
    exact fun hmem ↦ List.disjoint_of_nodup_append hrest hmem (List.mem_cons_self ..)
  · rw [hdrop]
    exact fun hmem ↦ List.disjoint_of_nodup_append hfront hp hmem
  · exact (List.nodup_cons.mp (List.nodup_append.mp hrest).2.1).1

variable [DecidableEq ν]

theorem Ring.insert (h : Ring k e (a ++ b)) (ha : e :: a = u ++ [p]) (hb : b ++ [e] = q :: v)
    (hn : n ∉ e :: (a ++ b)) : Ring ((k.link p n).link n q) e (a ++ n :: b) := by
  have hapart := Ring.apart h.nodup ha hb
  obtain ⟨hfront, -, hrest⟩ := h.at_gap ha hb
  have hnfront : n ∉ u ++ [p] := by
    rw [← ha]
    exact fun hmem ↦ hn (List.mem_append_left b hmem)
  have hnrest : n ∉ q :: v := by
    rw [← hb]
    intro hmem
    rcases List.mem_append.mp hmem with hmem | hmem
    · exact hn (List.mem_cons_of_mem e (List.mem_append_right a hmem))
    · exact hn (List.mem_singleton.mp hmem ▸ List.mem_cons_self ..)
  have hpn : p ≠ n := fun heq ↦ hnfront (heq ▸ by simp)
  have hqn : q ≠ n := fun heq ↦ hnrest (heq ▸ by simp)
  have hnodup : (e :: (a ++ n :: b)).Nodup := by
    have hperm : (e :: (a ++ n :: b)).Perm (n :: e :: (a ++ b)) :=
      (List.Perm.cons e List.perm_middle).trans (List.Perm.swap ..)
    exact hperm.nodup_iff.mpr (List.nodup_cons.mpr ⟨hn, h.nodup⟩)
  refine Ring.of_gap (b := n :: b) hnodup ha (List.cons_append ..) ?_ ?_ ?_
  · apply Links.isChain_link
    · apply Links.isChain_link hfront
      · rw [List.dropLast_concat]
        exact hapart.p_front
      · exact fun hmem ↦ hnfront (List.mem_of_mem_tail hmem)
    · exact fun hmem ↦ hnfront (List.dropLast_subset _ hmem)
    · exact hapart.q_front
  · exact (Links.linked_link k p n).link hpn (Ne.symm hqn)
  · rw [hb]
    refine List.IsChain.cons_cons (Links.linked_link _ n q) ?_
    apply Links.isChain_link
    · apply Links.isChain_link hrest hapart.p_rest
      exact fun hmem ↦ hnrest (List.mem_cons_of_mem q hmem)
    · exact fun hmem ↦ hnrest (List.dropLast_subset _ hmem)
    · exact hapart.q_rest

theorem Ring.remove (h : Ring k e (a ++ n :: b)) (ha : e :: a = u ++ [p])
    (hb : b ++ [e] = q :: v) : Ring (k.link p q) e (a ++ b) := by
  have hnodup : (e :: (a ++ b)).Nodup := by
    refine h.nodup.sublist (List.Sublist.cons_cons e ?_)
    exact List.Sublist.append_left (List.sublist_cons_self n b) a
  have hapart := Ring.apart hnodup ha hb
  obtain ⟨hfront, -, hrest⟩ := h.at_gap ha (List.cons_append ..)
  rw [hb] at hrest
  refine Ring.of_gap hnodup ha hb ?_ (Links.linked_link k p q) ?_
  · apply Links.isChain_link hfront
    · rw [List.dropLast_concat]
      exact hapart.p_front
    · exact hapart.q_front
  · exact Links.isChain_link (List.isChain_cons_cons.mp hrest).2 hapart.p_rest hapart.q_rest

/-- Pointers between nodes outside a ring do not concern it. -/
theorem Ring.link_outside {x y : ν} (h : Ring k e l) (hx : x ∉ e :: l) (hy : y ∉ e :: l) :
    Ring (k.link x y) e l := by
  refine ⟨h.nodup, Links.isChain_link h.path ?_ ?_⟩
  · rw [← List.cons_append, List.dropLast_concat]
    exact hx
  · rw [List.tail_cons]
    intro hmem
    rcases List.mem_append.mp hmem with hmem | hmem
    · exact hy (List.mem_cons_of_mem e hmem)
    · exact hy (List.mem_singleton.mp hmem ▸ List.mem_cons_self ..)

end Rings

end Tanenbaum.Lib.Rings
