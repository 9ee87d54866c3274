import Tanenbaum.Kernel.Lists

namespace Tanenbaum.Kernel.ListUse

open Lib.Bytes Lib.Rings Lists

variable {ι Λ : Type} {i j x y : ι} {l : Λ} {xs a b q : List ι} {value : ι → Word}

section Sorted

theorem insertSorted_cons (value : ι → Word) (i x : ι) (xs : List ι) :
    insertSorted value i (x :: xs) =
      if value x ≤ value i then x :: insertSorted value i xs else i :: x :: xs := by
  by_cases hle : value x ≤ value i
  · simp [insertSorted, hle]
  · simp [insertSorted, hle]

theorem insertSorted_perm (value : ι → Word) (i : ι) (xs : List ι) :
    (insertSorted value i xs).Perm (i :: xs) := by
  have hperm : (insertSorted value i xs).Perm (i :: (xs.takeWhile (value · ≤ value i) ++
      xs.dropWhile (value · ≤ value i))) := List.perm_middle
  rwa [List.takeWhile_append_dropWhile] at hperm

theorem mem_insertSorted : j ∈ insertSorted value i xs ↔ j = i ∨ j ∈ xs := by
  rw [(insertSorted_perm value i xs).mem_iff, List.mem_cons]

theorem pairwise_insertSorted (hxs : xs.Pairwise (value · ≤ value ·)) :
    (insertSorted value i xs).Pairwise (value · ≤ value ·) := by
  induction xs with
  | nil => exact List.pairwise_singleton ..
  | cons x xs ih =>
    rw [List.pairwise_cons] at hxs
    rw [insertSorted_cons]
    split
    · next hle =>
      refine List.pairwise_cons.mpr ⟨fun j hj ↦ ?_, ih hxs.2⟩
      rcases mem_insertSorted.mp hj with rfl | hj
      · exact hle
      · exact hxs.1 j hj
    · next hle =>
      have hlt : value i ≤ value x := Nat.le_of_not_le hle
      refine List.pairwise_cons.mpr ⟨fun j hj ↦ ?_, List.pairwise_cons.mpr hxs⟩
      rcases List.mem_cons.mp hj with rfl | hj
      · exact hlt
      · exact Nat.le_trans hlt (hxs.1 j hj)

/-- Among the items of one value the new one is the last. -/
theorem filter_insertSorted (hxs : xs.Pairwise (value · ≤ value ·)) (v : Word) :
    (insertSorted value i xs).filter (value · = v) = (xs ++ [i]).filter (value · = v) := by
  induction xs with
  | nil => rfl
  | cons x xs ih =>
    rw [List.pairwise_cons] at hxs
    rw [insertSorted_cons]
    split
    · rw [List.filter_cons, ih hxs.2, List.cons_append, List.filter_cons]
    · next hle =>
      rw [List.filter_cons, List.filter_append]
      by_cases hv : value i = v
      · have hnone : (x :: xs).filter (value · = v) = [] := by
          rw [List.filter_eq_nil_iff]
          intro j hj heq
          have hle' : value j ≤ value i := by
            rw [of_decide_eq_true heq, hv]
            exact Nat.le_refl _
          rcases List.mem_cons.mp hj with rfl | hj
          · exact hle hle'
          · exact hle (Nat.le_trans (hxs.1 j hj) hle')
        simp [hnone, hv]
      · simp [hv]

end Sorted

section Arrivals

variable {c c' : Contents ι Λ} {h : Heap ι Λ} {r : Result ι} {op : Op ι Λ}

/-- The items of a list, none before it is initialised. -/
def held (c : Contents ι Λ) (l : Λ) : List ι := (c.items l).getD []

theorem held_eq (hl : c.items l = some xs) : held c l = xs := by
  rw [held, hl, Option.getD_some]

theorem exists_of_mem_held (hi : i ∈ held c l) : ∃ xs, c.items l = some xs ∧ i ∈ xs := by
  rw [held] at hi
  cases hl : c.items l with
  | none =>
    rw [hl] at hi
    cases hi
  | some xs =>
    rw [hl] at hi
    exact ⟨xs, rfl, hi⟩

/-- A list in order of the values, and in order of arrival for each of them. -/
structure Sorted (c : Contents ι Λ) (l : Λ) (q : List ι) : Prop where
  pairwise : (held c l).Pairwise (c.value · ≤ c.value ·)
  filter : ∀ v, (held c l).filter (c.value · = v) = q.filter (c.value · = v)

theorem Sorted.mem_iff (hs : Sorted c l q) : i ∈ held c l ↔ i ∈ q := by
  have hmem (zs : List ι) : i ∈ zs ↔ i ∈ zs.filter (c.value · = c.value i) := by simp
  rw [hmem, hs.filter, ← hmem]

/-- The order only depends on the values of the items that are there. -/
theorem Sorted.of_value (hs : Sorted c l q) (hheld : held c' l = held c l)
    (hvalue : ∀ j ∈ held c l, c'.value j = c.value j) : Sorted c' l q := by
  refine ⟨?_, fun v ↦ ?_⟩
  · rw [hheld]
    refine hs.pairwise.imp_of_mem fun {j k} hj hk hle ↦ ?_
    rw [hvalue j hj, hvalue k hk]
    exact hle
  · rw [hheld]
    have hleft : (held c l).filter (c'.value · = v) = (held c l).filter (c.value · = v) :=
      List.filter_congr fun j hj ↦ by rw [hvalue j hj]
    have hright : q.filter (c'.value · = v) = q.filter (c.value · = v) :=
      List.filter_congr fun j hj ↦ by rw [hvalue j (hs.mem_iff.mpr hj)]
    rw [hleft, hright, hs.filter]

variable [DecidableEq ι]

theorem filter_erase (p : ι → Bool) (i : ι) (xs : List ι) :
    (xs.erase i).filter p = if p i then (xs.filter p).erase i else xs.filter p := by
  induction xs with
  | nil => simp
  | cons x xs ih =>
    by_cases hx : x = i
    · subst hx
      by_cases hp : p x <;> simp [hp]
    · rw [List.erase_cons_tail (by simpa using hx), List.filter_cons, List.filter_cons, ih]
      by_cases hp : p i <;> by_cases hpx : p x <;> simp [hp, hpx, hx]

theorem Sorted.erase (hs : Sorted c l q) (hheld : held c' l = (held c l).erase i)
    (hvalue : c'.value = c.value) : Sorted c' l (q.erase i) := by
  refine ⟨?_, fun v ↦ ?_⟩
  · rw [hheld, hvalue]
    exact hs.pairwise.sublist List.erase_sublist
  · rw [hheld, hvalue, filter_erase, filter_erase, hs.filter]

variable [DecidableEq Λ]

omit [DecidableEq ι] in
theorem held_put (c : Contents ι Λ) (l : Λ) (xs : List ι) (index : Option ι) :
    held (c.put l xs index) l = xs := held_eq (Contents.put_items ..)

omit [DecidableEq ι] in
theorem held_put_of_ne {l' : Λ} (hne : l ≠ l') (index : Option ι) :
    held (c.put l' xs index) l = held c l := by
  rw [held, Contents.put_items_of_ne hne, held]

/-- The items put on a list in the order of their arrival. -/
def arrive (l : Λ) (q : List ι) : Op ι Λ → List ι
  | .initialise l' => if l' = l then [] else q
  | .insert l' i => if l' = l then q ++ [i] else q
  | .remove i => q.erase i
  | _ => q

def arrivals (l : Λ) (ops : List (Op ι Λ)) : List ι := ops.foldl (arrive l) []

/-- How the kernel uses an ordered list: by `vListInsert` only, and the value of
an item does not change while it is there. -/
def Orderly (l : Λ) : List ι → List (Op ι Λ) → Prop
  | _, [] => True
  | q, op :: ops => (match op with
      | .setValue i _ => i ∉ q
      | .insertEnd l' _ => l' ≠ l
      | _ => True) ∧ Orderly l (arrive l q op) ops

theorem Sorted.step (hs : Sorted c l q) (hr : Represents h c) (hop : Spec c op r c')
    {ops : List (Op ι Λ)} (horder : Orderly l q (op :: ops)) : Sorted c' l (arrive l q op) := by
  cases hop with
  | initialise l' =>
    by_cases hne : l = l'
    · subst hne
      simp only [arrive, if_pos]
      refine ⟨?_, fun v ↦ ?_⟩ <;> rw [held_put]
      exact List.Pairwise.nil
    · rw [arrive, if_neg (Ne.symm hne)]
      exact hs.of_value (held_put_of_ne hne none) fun j _ ↦ rfl
  | initialiseItem hi => exact hs
  | setValue i v =>
    refine hs.of_value rfl fun j hj ↦ Function.update_of_ne ?_ ..
    rintro rfl
    exact horder.1 (hs.mem_iff.mp hj)
  | @insertEnd l' i xs hl hi =>
    exact hs.of_value (held_put_of_ne (Ne.symm horder.1) _) fun j _ ↦ rfl
  | @insert l' i xs hl hi =>
    by_cases hne : l = l'
    · subst hne
      have hpairwise := hs.pairwise
      have hfilter := hs.filter
      rw [held_eq hl] at hpairwise hfilter
      simp only [arrive, if_pos]
      refine ⟨?_, fun v ↦ ?_⟩ <;> rw [held_put]
      · exact pairwise_insertSorted hpairwise
      · refine (filter_insertSorted hpairwise v).trans ?_
        rw [List.filter_append, hfilter, ← List.filter_append]
        rfl
    · rw [arrive, if_neg (Ne.symm hne)]
      exact hs.of_value (held_put_of_ne hne _) fun j _ ↦ rfl
  | @remove l' i xs hl hi =>
    refine hs.erase ?_ rfl
    by_cases hne : l = l'
    · subst hne
      rw [held_put, held_eq hl]
    · have hout : i ∉ held c l := by
        intro hmem
        obtain ⟨xs', hl', hi'⟩ := exists_of_mem_held hmem
        have hcontainer := (hr.container l xs' hl' i hi').symm.trans (hr.container l' xs hl i hi)
        exact hne (Option.some.inj hcontainer)
      rw [held_put_of_ne hne, List.erase_of_not_mem hout]
  | @nextEntry l' i xs hl hi =>
    refine hs.of_value ?_ fun j _ ↦ rfl
    by_cases hne : l = l'
    · subst hne
      rw [held_put, held_eq hl]
    · exact held_put_of_ne hne _

theorem Sorted.run {ops : List (Op ι Λ)} {rs : List (Result ι)} (hs : Sorted c l q)
    (hr : Represents h c) (hops : Specs c ops rs c') (horder : Orderly l q ops) :
    Sorted c' l (ops.foldl (arrive l) q) := by
  induction hops generalizing h q with
  | nil c => exact hs
  | cons hop hops ih =>
    obtain ⟨n, h', -, hr'⟩ := hr.step hop
    exact ih (hs.step hr hop horder) hr' horder.2

/-- A list that is used in an orderly way is a priority queue: from the marker
round the pointers run through its items by value, and through those of one
value in the order in which they came. -/
theorem ring_sorted_by_value_then_arrival (h : Heap ι Λ) {ops : List (Op ι Λ)}
    {rs : List (Result ι)} (hops : Specs (.blank h) ops rs c') (hl : c'.items l = some xs)
    (horder : Orderly l [] ops) :
    ∃ n h', (∀ fuel ≥ n, run fuel h ops = some (rs, h')) ∧
      Ring h'.links (.listEnd l) (xs.map .item) ∧
      xs.Pairwise (fun i j ↦ h'.value (.item i) ≤ h'.value (.item j)) ∧
      ∀ v, xs.filter (fun i ↦ h'.value (.item i) = v) =
        (arrivals l ops).filter (fun i ↦ h'.value (.item i) = v) := by
  obtain ⟨n, h', hrun, hr⟩ := (Represents.blank h).run hops
  have hblank : Sorted (.blank h) l [] := ⟨List.Pairwise.nil, fun v ↦ rfl⟩
  have hs := hblank.run (Represents.blank h) hops horder
  have hpairwise := hs.pairwise
  have hfilter := hs.filter
  rw [held_eq hl] at hpairwise hfilter
  refine ⟨n, h', hrun, hr.ring l xs hl, ?_, ?_⟩
  · simp only [hr.value]
    exact hpairwise
  · simp only [hr.value]
    exact hfilter

/-- An item that comes later goes behind the one of its value. -/
theorem ring_sorted_three_items : ∃ n h', (∀ fuel ≥ n, run fuel unset
      [.initialise 0, .insert 0 1, .setValue 2 4, .insert 0 2, .insert 0 3] =
    some ([.done, .done, .done, .done, .done], h')) ∧
    Ring h'.links (.listEnd 0) ([2, 1, 3].map .item) ∧
    [2, 1, 3].filter (fun i ↦ h'.value (.item i) = 7) =
      [1, 2, 3].filter (fun i ↦ h'.value (.item i) = 7) := by
  have hops := Specs.cons (c := .blank unset) (.initialise 0) <|
    .cons (.insert (l := 0) (i := 1) (show _ = some [] from rfl) ?_) <| .cons (.setValue 2 4) <|
    .cons (.insert (l := 0) (i := 2) (show _ = some [1] from rfl) ?_) <|
    .cons (.insert (l := 0) (i := 3) (show _ = some [2, 1] by decide) ?_) (.nil _)
  · obtain ⟨n, h', hrun, hring, -, hfilter⟩ :=
      ring_sorted_by_value_then_arrival (l := 0) unset hops (show _ = some [2, 1, 3] by decide)
        (by simp [Orderly, arrive])
    exact ⟨n, h', hrun, hring, hfilter 7⟩
  · exact (Contents.free_blank unset 1).put (by simp) none
  · exact ((Contents.free_blank unset 2).put List.not_mem_nil none).put (by decide) none
  · exact (((Contents.free_blank unset 3).put List.not_mem_nil none).put
      (show 3 ∉ [1] by decide) none).put (by decide) none

end Arrivals

section Turns

variable [DecidableEq ι]

/-- The items in the order in which the index comes to them. -/
def turns (xs : List ι) : Option ι → List ι
  | none => xs
  | some i => (xs.dropWhile (· ≠ i)).tail ++ (xs.takeWhile (· ≠ i) ++ [i])

theorem turns_at (ha : i ∉ a) : turns (a ++ i :: b) (some i) = b ++ (a ++ [i]) := by
  rw [turns, dropWhile_ne_append ha, takeWhile_ne_append ha, List.tail_cons]

theorem turns_eq (hxs : xs = a ++ i :: b) (ha : i ∉ a) :
    turns xs (some i) = b ++ (a ++ [i]) := by
  rw [hxs, turns_at ha]

theorem turns_perm {index : Option ι} (hindex : ∀ j, index = some j → j ∈ xs) :
    (turns xs index).Perm xs := by
  cases index with
  | none => exact .rfl
  | some i =>
    obtain ⟨a, b, rfl, ha⟩ := List.eq_append_cons_of_mem (hindex i rfl)
    rw [turns_at ha]
    refine List.perm_append_comm.trans ?_
    rw [List.append_assoc]
    exact .rfl

theorem head_turns {index : Option ι} (hindex : ∀ j, index = some j → j ∈ xs) :
    following index xs = (turns xs index).head? := by
  cases index with
  | none =>
    rw [following, behind, turns]
    cases xs <;> rfl
  | some i =>
    obtain ⟨a, b, rfl, ha⟩ := List.eq_append_cons_of_mem (hindex i rfl)
    rw [following, behind, turns_at ha, dropWhile_ne_append ha, List.tail_cons]
    cases b with
    | nil => cases a <;> rfl
    | cons k b => rfl

/-- The item that had its turn goes to the end. -/
theorem turns_next {index : Option ι} (hxs : xs.Nodup) (hindex : ∀ j, index = some j → j ∈ xs)
    (hi : following index xs = some i) :
    ∃ t, turns xs index = i :: t ∧ turns xs (some i) = t ++ [i] := by
  rw [head_turns hindex] at hi
  cases index with
  | none =>
    rw [turns] at hi ⊢
    obtain ⟨t, rfl⟩ := List.head?_eq_some_iff.mp hi
    exact ⟨t, rfl, turns_at (a := []) List.not_mem_nil⟩
  | some k =>
    obtain ⟨a, b, rfl, ha⟩ := List.eq_append_cons_of_mem (hindex k rfl)
    rw [turns_at ha] at hi ⊢
    cases b with
    | nil =>
      cases a with
      | nil =>
        cases hi
        exact ⟨[], rfl, turns_at (a := []) List.not_mem_nil⟩
      | cons m a =>
        cases hi
        refine ⟨a ++ [k], rfl, ?_⟩
        exact turns_at (a := []) List.not_mem_nil
    | cons m b =>
      cases hi
      have hm : i ∉ a ++ [k] := by
        rw [List.append_cons] at hxs
        exact fun hmem ↦ List.disjoint_of_nodup_append hxs hmem (List.mem_cons_self ..)
      refine ⟨b ++ (a ++ [k]), rfl, ?_⟩
      rw [List.append_cons, turns_at hm, List.append_assoc, List.append_assoc, List.append_assoc]

/-- A new item takes no turn away and leaves the order of the others. -/
theorem turns_insert {index : Option ι} (hi : i ∉ a ++ b)
    (hindex : ∀ j, index = some j → j ∈ a ++ b) :
    (turns (a ++ b) index).Sublist (turns (a ++ i :: b) index) := by
  have hinsert (a b : List ι) : (a ++ b).Sublist (a ++ i :: b) :=
    List.Sublist.append_left (List.sublist_cons_self i b) a
  cases index with
  | none => exact hinsert a b
  | some k =>
    have hmem := hindex k rfl
    by_cases hk : k ∈ a
    · obtain ⟨a₁, a₂, rfl, ha₁⟩ := List.eq_append_cons_of_mem hk
      have hold : turns (a₁ ++ k :: a₂ ++ b) (some k) = a₂ ++ b ++ (a₁ ++ [k]) :=
        turns_eq (by simp) ha₁
      have hnew : turns (a₁ ++ k :: a₂ ++ i :: b) (some k) = a₂ ++ i :: b ++ (a₁ ++ [k]) :=
        turns_eq (by simp) ha₁
      rw [hold, hnew]
      exact (hinsert a₂ b).append_right _
    · have hb : k ∈ b := (List.mem_append.mp hmem).resolve_left hk
      obtain ⟨b₁, b₂, rfl, hb₁⟩ := List.eq_append_cons_of_mem hb
      have hne : k ≠ i := fun heq ↦ hi (heq ▸ hmem)
      have hold : turns (a ++ (b₁ ++ k :: b₂)) (some k) = b₂ ++ (a ++ b₁ ++ [k]) :=
        turns_eq (by simp) (by simp [hk, hb₁])
      have hnew : turns (a ++ i :: (b₁ ++ k :: b₂)) (some k) = b₂ ++ (a ++ i :: b₁ ++ [k]) :=
        turns_eq (by simp) (by simp [hk, hb₁, hne])
      rw [hold, hnew]
      exact ((hinsert a b₁).append_right _).append_left b₂

theorem turns_insertWhile {index : Option ι} (hi : i ∉ xs)
    (hindex : ∀ j, index = some j → j ∈ xs) (p : ι → Bool) :
    (turns xs index).Sublist (turns (xs.takeWhile p ++ i :: xs.dropWhile p) index) := by
  have hsplit := List.takeWhile_append_dropWhile (p := p) (l := xs)
  rw [← hsplit] at hi hindex
  have hturns := turns_insert hi hindex
  rwa [hsplit] at hturns

/-- An item that is taken away leaves the order of the others. -/
theorem turns_erase {index : Option ι} (hxs : xs.Nodup)
    (hindex : ∀ j, index = some j → j ∈ xs) :
    turns (xs.erase i) (if index = some i then before i xs else index) =
      (turns xs index).erase i := by
  cases index with
  | none => rfl
  | some k =>
    have hnodup := (turns_perm hindex).nodup_iff.mpr hxs
    obtain ⟨a, b, rfl, ha⟩ := List.eq_append_cons_of_mem (hindex k rfl)
    rw [hnodup.erase_eq_filter, hxs.erase_eq_filter, turns_at ha]
    have hb : k ∉ b := (List.nodup_cons.mp (List.nodup_append.mp hxs).2.1).1
    by_cases hk : k = i
    · subst hk
      have hfront : a.filter (· != k) = a := by
        rw [List.filter_eq_self]
        intro j hj
        simpa using fun heq : j = k ↦ ha (heq ▸ hj)
      have hrest : b.filter (· != k) = b := by
        rw [List.filter_eq_self]
        intro j hj
        simpa using fun heq : j = k ↦ hb (heq ▸ hj)
      rw [if_pos rfl, before, takeWhile_ne_append ha]
      simp only [List.filter_append, List.filter_cons, hfront, hrest, bne_self_eq_false,
        Bool.false_eq_true, if_false, List.filter_nil, List.append_nil]
      -- The index falls back to the item in front, or to the marker.
      rcases List.eq_nil_or_concat a with rfl | ⟨a', m, rfl⟩
      · simp [turns]
      · rw [List.concat_eq_append] at hxs ⊢
        have hm : m ∉ a' := by
          have hfront := (List.nodup_append.mp hxs).1
          exact fun hmem ↦ List.disjoint_of_nodup_append hfront hmem (List.mem_singleton_self m)
        rw [List.getLast?_concat]
        exact turns_eq (by simp) hm
    · have hne : (k != i) = true := by simpa using hk
      rw [if_neg (by simpa using hk)]
      simp only [List.filter_append, List.filter_cons, hne, if_true, List.filter_nil]
      exact turns_at fun hmem ↦ ha (List.mem_of_mem_filter hmem)

variable [DecidableEq Λ] {c c' : Contents ι Λ} {h : Heap ι Λ} {r : Result ι} {op : Op ι Λ}

/-- `x` is on the list and has its turn before `y`. -/
def Before (c : Contents ι Λ) (l : Λ) (x y : ι) : Prop :=
  ∃ xs, c.items l = some xs ∧ [x, y].Sublist (turns xs (c.index l))

omit [DecidableEq Λ] in
theorem Before.of_eq (hb : Before c l x y) (hitems : c'.items l = c.items l)
    (hindex : c'.index l = c.index l) : Before c' l x y := by
  obtain ⟨xs, hl, hsub⟩ := hb
  refine ⟨xs, hitems.trans hl, ?_⟩
  rw [hindex]
  exact hsub

theorem Before.put_other (hb : Before c l x y) {l' : Λ} (hne : l ≠ l') (index : Option ι) :
    Before (c.put l' xs index) l x y :=
  hb.of_eq (Contents.put_items_of_ne hne index) (Function.update_of_ne hne ..)

theorem Before.put_self {index : Option ι} (hsub : [x, y].Sublist (turns xs index)) :
    Before (c.put l xs index) l x y := by
  refine ⟨xs, Contents.put_items .., ?_⟩
  have hindex : (c.put l xs index).index l = index := Function.update_self ..
  rw [hindex]
  exact hsub

theorem nextEntry_step {rs : Result ι} (hr : Represents h c) (hl : c.items l = some xs)
    (hop : Spec c (.nextEntry l) rs c') :
    ∃ i t, rs = .owner i ∧ c' = c.put l xs (some i) ∧ turns xs (c.index l) = i :: t ∧
      turns xs (some i) = t ++ [i] := by
  cases hop with
  | @nextEntry _ i xs' hl' hi =>
    obtain rfl : xs = xs' := Option.some.inj (hl.symm.trans hl')
    obtain ⟨t, hturns, hnext⟩ := turns_next (hr.nodup hl) (hr.index_mem l xs hl) hi
    exact ⟨i, t, rfl, rfl, hturns, hnext⟩

/-- As long as both stay on the list, only a turn of `x` changes this. -/
theorem Before.step (hb : Before c l x y) (hr : Represents h c) (hop : Spec c op r c')
    (hx : op ≠ .remove x) (hy : op ≠ .remove y) (hinit : op ≠ .initialise l) :
    Before c' l x y ∧ ¬ (op = .nextEntry l ∧ r = .owner y) ∨
      op = .nextEntry l ∧ r = .owner x := by
  cases hop with
  | initialise l' =>
    have hne : l ≠ l' := fun heq ↦ hinit (heq ▸ rfl)
    exact .inl ⟨hb.put_other hne none, by simp⟩
  | initialiseItem hi => exact .inl ⟨hb, by simp⟩
  | setValue i v => exact .inl ⟨hb.of_eq rfl rfl, by simp⟩
  | @insertEnd l' i xs hl hi =>
    refine .inl ⟨?_, by simp⟩
    by_cases hne : l = l'
    · subst hne
      obtain ⟨xs', hl', hsub⟩ := hb
      obtain rfl : xs = xs' := Option.some.inj (hl.symm.trans hl')
      exact Before.put_self
        (hsub.trans (turns_insertWhile (hi l xs hl) (hr.index_mem l xs hl) _))
    · exact hb.put_other hne _
  | @insert l' i xs hl hi =>
    refine .inl ⟨?_, by simp⟩
    by_cases hne : l = l'
    · subst hne
      obtain ⟨xs', hl', hsub⟩ := hb
      obtain rfl : xs = xs' := Option.some.inj (hl.symm.trans hl')
      exact Before.put_self
        (hsub.trans (turns_insertWhile (hi l xs hl) (hr.index_mem l xs hl) _))
    · exact hb.put_other hne _
  | @remove l' i xs hl hi =>
    refine .inl ⟨?_, by simp⟩
    by_cases hne : l = l'
    · subst hne
      obtain ⟨xs', hl', hsub⟩ := hb
      obtain rfl : xs = xs' := Option.some.inj (hl.symm.trans hl')
      apply Before.put_self
      rw [turns_erase (hr.nodup hl) (hr.index_mem l xs hl)]
      have hout : i ∉ [x, y] := by
        have hix : i ≠ x := fun heq ↦ hx (heq ▸ rfl)
        have hiy : i ≠ y := fun heq ↦ hy (heq ▸ rfl)
        simp [hix, hiy]
      have herase := hsub.erase i
      rwa [List.erase_of_not_mem hout] at herase
    · exact hb.put_other hne _
  | @nextEntry l' i xs hl hi =>
    by_cases hne : l = l'
    · subst hne
      obtain ⟨xs', hl', hsub⟩ := hb
      obtain rfl : xs = xs' := Option.some.inj (hl.symm.trans hl')
      obtain ⟨t, hturns, hnext⟩ := turns_next (hr.nodup hl) (hr.index_mem l xs hl) hi
      rw [hturns] at hsub
      by_cases hix : i = x
      · exact .inr ⟨rfl, by rw [hix]⟩
      have hrest : [x, y].Sublist t := by
        cases hsub with
        | cons _ hsub => exact hsub
        | cons_cons _ hsub => exact absurd rfl hix
      refine .inl ⟨Before.put_self ?_, ?_⟩
      · rw [hnext]
        exact hrest.trans (List.sublist_append_left t [i])
      · rintro ⟨-, heq⟩
        cases heq
        have hnodup := (turns_perm (hr.index_mem l xs hl)).nodup_iff.mpr (hr.nodup hl)
        rw [hturns] at hnodup
        exact (List.nodup_cons.mp hnodup).1 (hrest.subset (by simp))
    · exact .inl ⟨hb.put_other hne _, by simpa using fun heq ↦ absurd heq.symm hne⟩

theorem Before.run {ops : List (Op ι Λ)} {rs : List (Result ι)} (hb : Before c l x y)
    (hr : Represents h c) (hops : Specs c ops rs c') (hx : .remove x ∉ ops)
    (hy : .remove y ∉ ops) (hinit : .initialise l ∉ ops)
    (hturn : (.nextEntry l, .owner x) ∉ ops.zip rs) :
    Before c' l x y ∧ ∃ h', Represents h' c' := by
  induction hops generalizing h with
  | nil c => exact ⟨hb, h, hr⟩
  | cons hop hops ih =>
    obtain ⟨n, h', -, hr'⟩ := hr.step hop
    simp only [List.mem_cons, not_or] at hx hy hinit
    rw [List.zip_cons_cons, List.mem_cons, not_or] at hturn
    rcases hb.step hr hop (Ne.symm hx.1) (Ne.symm hy.1) (Ne.symm hinit.1) with hb' | ⟨rfl, rfl⟩
    · exact ih hb'.1 hr' hx.2 hy.2 hinit.2 hturn.2
    · exact absurd rfl hturn.1

/-- The scheduler goes round: between two turns of one task that stays on a
ready list, every other task that stays there has a turn. -/
theorem turn_between_turns {mid : List (Op ι Λ)} {rs : List (Result ι)} {h' : Heap ι Λ}
    {fuel : ℕ} (hr : Represents h c) (hl : c.items l = some xs) (hmem : x ∈ xs) (hne : x ≠ y)
    (hlegal : ∃ rs' c', Specs c (.nextEntry l :: mid ++ [.nextEntry l]) rs' c')
    (hx : .remove x ∉ mid) (hy : .remove y ∉ mid) (hinit : .initialise l ∉ mid)
    (hrun : run fuel h (.nextEntry l :: mid ++ [.nextEntry l]) =
      some (.owner y :: rs ++ [.owner y], h')) :
    (.nextEntry l, .owner x) ∈ mid.zip rs := by
  obtain ⟨rs', c', hops⟩ := hlegal
  obtain rfl := results_eq hr hops hrun
  by_contra hturn
  cases hops with
  | cons hfirst hops =>
    obtain ⟨n, h₁, -, hr₁⟩ := hr.step hfirst
    obtain ⟨i, t, howner, rfl, hturns, hnext⟩ := nextEntry_step hr hl hfirst
    cases howner
    have hb : Before (c.put l xs (some y)) l x y := by
      apply Before.put_self
      have hperm := turns_perm (hr.index_mem l xs hl)
      have ht : x ∈ t := by
        have hx := hperm.mem_iff.mpr hmem
        rw [hturns] at hx
        exact (List.mem_cons.mp hx).resolve_left hne
      rw [hnext]
      exact (List.singleton_sublist.mpr ht).append (List.Sublist.refl [y])
    obtain ⟨rs₁, rs₂, c₁, hsplit, hmid, hlast⟩ := hops.append_inv
    cases hlast with
    | cons hlast hnil =>
      cases hnil
      obtain ⟨rfl, hr₂⟩ := List.append_inj' hsplit rfl
      cases hr₂
      obtain ⟨hb', h₂, hr₂⟩ := hb.run hr₁ hmid hx hy hinit hturn
      rcases hb'.step hr₂ hlast (by simp) (by simp) (by simp) with ⟨-, hnot⟩ | ⟨-, heq⟩
      · exact hnot ⟨rfl, rfl⟩
      · cases heq
        exact hne rfl

/-- Item 3 arrives while item 1 has its turn, and item 2 is not kept waiting. -/
theorem turn_between_two_items :
    (run 0 (vListInsertEnd 0 2 (vListInsertEnd 0 1 (vListInitialise 0 unset)))
      [.nextEntry 0, .insertEnd 0 3, .nextEntry 0, .nextEntry 0, .nextEntry 0]).isSome ∧
    (.nextEntry 0, .owner 2) ∈ [Op.insertEnd 0 3, .nextEntry 0, .nextEntry 0].zip
      [Result.done, .owner 2, .owner 3] := by
  have hblank := (Represents.blank unset).initialise (l := 0)
  have hfree (i : ℕ) : ((Contents.blank unset).put 0 [] none).Free i :=
    (Contents.free_blank unset i).put List.not_mem_nil none
  have hfirst := hblank.insertEnd (l := 0) (i := 1) (show _ = some [] from rfl) (hfree 1)
  have hsecond := hfirst.insertEnd (l := 0) (i := 2) (show _ = some [1] from rfl)
    ((hfree 2).put (by decide) none)
  have hlegal := Specs.cons
    (c := (((Contents.blank unset).put 0 [] none).put 0 [1] none).put 0 [1, 2] none)
    (.nextEntry (l := 0) (i := 1) (show _ = some [1, 2] from rfl) rfl) <|
    .cons (.insertEnd (l := 0) (i := 3) (show _ = some [1, 2] from rfl)
      ((((hfree 3).put (show 3 ∉ [1] by decide) none).put (by decide) none).put (by decide) _)) <|
    .cons (.nextEntry (l := 0) (i := 2) (show _ = some [3, 1, 2] from rfl) rfl) <|
    .cons (.nextEntry (l := 0) (i := 3) (show _ = some [3, 1, 2] from rfl) rfl) <|
    .cons (.nextEntry (l := 0) (i := 1) (show _ = some [3, 1, 2] from rfl) rfl) (.nil _)
  refine ⟨rfl, ?_⟩
  exact turn_between_turns hsecond (show _ = some [1, 2] from rfl) (by decide) (by decide)
    ⟨_, _, hlegal⟩ (by simp) (by simp) (by simp) (show run 0 _ _ = _ from rfl)

end Turns

end Tanenbaum.Kernel.ListUse
