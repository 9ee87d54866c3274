import Tanenbaum.Lib.Tiles
import Tanenbaum.Kernel.Heap

namespace Tanenbaum.Kernel.FreeList

open Lib.Tiles

/-- What `prvInsertBlockIntoFreeList` does to the free blocks, with those behind `pxIterator`. -/
def joinNext (b : Block) : List Block → List Block
  | [] => [b]
  | c :: cs => if b.addr + b.size = c.addr then ⟨b.addr, b.size + c.size⟩ :: cs else b :: c :: cs

def join (pxIterator : Option Block) (b : Block) (cs : List Block) : List Block :=
  match pxIterator with
  | none => joinNext b cs
  | some c => if c.addr + c.size = b.addr then joinNext ⟨c.addr, c.size + b.size⟩ cs
    else c :: joinNext b cs

def insertFrom (b : Block) : Option Block → List Block → List Block
  | pxIterator, [] => join pxIterator b []
  | pxIterator, c :: cs => if c.addr < b.addr then pxIterator.toList ++ insertFrom b (some c) cs
    else join pxIterator b (c :: cs)

def insert (b : Block) (free : List Block) : List Block := insertFrom b none free

/-- The first free block that is large enough, with those before it and behind it. -/
def search (xWantedSize : ℕ) : List Block → Option (List Block × Block × List Block)
  | [] => none
  | b :: bs => if b.size < xWantedSize then
      (search xWantedSize bs).map fun (xs, c, ys) ↦ (b :: xs, c, ys)
    else some ([], b, bs)

section List

variable {b c : Block} {xs ys bs cs : List Block}

theorem insertFrom_eq {pxIterator : Option Block} (hbs : ∀ c ∈ bs, c.addr < b.addr)
    (hcs : ∀ c ∈ cs, b.addr ≤ c.addr) :
    insertFrom b pxIterator (bs ++ cs) = (pxIterator.toList ++ bs).dropLast ++
      join (pxIterator.toList ++ bs).getLast? b cs := by
  induction bs generalizing pxIterator with
  | nil =>
    rw [List.nil_append, List.append_nil]
    have hstop : insertFrom b pxIterator cs = join pxIterator b cs := by
      cases cs with
      | nil => rfl
      | cons c cs => exact if_neg (Nat.not_lt_of_le (hcs c (List.mem_cons_self ..)))
    rw [hstop]
    cases pxIterator <;> rfl
  | cons c bs ih =>
    obtain ⟨hc, hbs⟩ := List.forall_mem_cons.mp hbs
    rw [List.cons_append, insertFrom, if_pos hc, ih hbs]
    cases pxIterator with
    | none => rfl
    | some d => simp

theorem search_some {n : ℕ} (h : search n bs = some (xs, b, ys)) :
    bs = xs ++ b :: ys ∧ n ≤ b.size := by
  induction bs generalizing xs with
  | nil => cases h
  | cons c bs ih =>
    rw [search] at h
    split at h
    · obtain ⟨⟨xs', c', ys'⟩, h', heq⟩ := Option.map_eq_some_iff.mp h
      simp only [Prod.mk.injEq] at heq
      obtain ⟨rfl, rfl, rfl⟩ := heq
      obtain ⟨rfl, hle⟩ := ih h'
      exact ⟨rfl, hle⟩
    · next hge =>
      simp only [Option.some.injEq, Prod.mk.injEq] at h
      obtain ⟨rfl, rfl, rfl⟩ := h
      exact ⟨rfl, Nat.le_of_not_lt hge⟩

theorem search_none {n : ℕ} : search n bs = none ↔ ∀ b ∈ bs, b.size < n := by
  induction bs with
  | nil => simp [search]
  | cons c bs ih =>
    rw [search, List.forall_mem_cons]
    split
    · next hlt => rw [Option.map_eq_none_iff, ih, and_iff_right hlt]
    · next hge => simp [hge]

end List

section Tiles

variable {a n : ℕ} {xs ys ts : List Tile}

theorem joinNext_spans (hpos : ∀ t ∈ ys, 0 < t.size) :
    joinNext ⟨a, n⟩ (spans false (a + n) ys) = spans false a (mergeRight n ys) := by
  obtain ⟨m, ys', rfl, h⟩ | ⟨h, hhead⟩ := mergeRight_cases n ys
  · rw [h, spans_mk_same, spans_mk_same, joinNext, if_pos rfl, Nat.add_assoc]
  · rw [h, spans_mk_same]
    cases hcs : spans false (a + n) ys with
    | nil => rfl
    | cons c cs =>
      refine if_neg fun heq ↦ ?_
      cases ys with
      | nil => cases hcs
      | cons t ys =>
        have ht := hhead t rfl
        rw [spans_other (by simp [ht])] at hcs
        have hc : c ∈ spans false (a + n + t.size) ys := hcs ▸ List.mem_cons_self ..
        have hle := (spans_bounds hc).1
        have hlt := hpos t (List.mem_cons_self ..)
        dsimp only at heq
        omega

/-- A free block that is not next to the one that is freed stays as it is. -/
theorem join_apart {c : Option Block} {b : Block} {cs : List Block}
    (hc : ∀ d ∈ c, d.addr + d.size ≠ b.addr) : join c b cs = c.toList ++ joinNext b cs := by
  cases c with
  | none => rfl
  | some d => exact if_neg (hc d rfl)

theorem insert_spans (a n : ℕ) (hxs : ∀ t ∈ xs, 0 < t.size)
    (hys : ∀ t ∈ ys, 0 < t.size) :
    insert ⟨a + total xs, n⟩
      (spans false a xs ++ spans false (a + total xs + n) ys) = spans false a (merge xs n ys) := by
  have hbefore : ∀ c ∈ spans false a xs, c.addr < a + total xs := by
    intro c hc
    obtain ⟨xs₁, xs₂, rfl, haddr⟩ := mem_spans hc
    have hpos := hxs ⟨false, c.size⟩ (by simp)
    rw [haddr, total_append, total_cons]
    omega
  have hbehind : ∀ c ∈ spans false (a + total xs + n) ys, a + total xs ≤ c.addr := by
    intro c hc
    have hle := (spans_bounds hc).1
    omega
  rw [insert, insertFrom_eq hbefore hbehind]
  change (spans false a xs).dropLast ++ join (spans false a xs).getLast? _ _ = _
  obtain ⟨xs', m, rfl, h⟩ | ⟨h, hlast⟩ := merge_cases xs n ys
  · have htotal : a + total (xs' ++ [⟨false, m⟩]) = a + total xs' + m := by
      rw [total_append, total_cons, total_nil, Nat.add_zero, Nat.add_assoc]
    rw [h, spans_append, spans_append, spans_mk_same, spans_nil, List.dropLast_concat,
      List.getLast?_concat, htotal, join, if_pos rfl, Nat.add_assoc _ m n, joinNext_spans hys]
  · rw [h, spans_append, ← joinNext_spans hys, join_apart, ← List.append_assoc]
    · congr 1
      cases hF : (spans false a xs).getLast? with
      | none => rw [List.getLast?_eq_none_iff.mp hF]; rfl
      | some c => exact List.dropLast_append_getLast? c hF
    · intro c hc heq
      induction xs using List.reverseRecOn with
      | nil => cases hc
      | append_singleton xs t _ =>
        have ht : t.taken = true := hlast t (by simp)
        rw [spans_append, spans_other (by simp [ht]), spans_nil, List.append_nil] at hc
        have hle := (spans_bounds (List.mem_of_getLast? hc)).2
        have hlt := hxs t (by simp)
        rw [total_append, total_cons, total_nil] at heq
        dsimp only at heq
        omega

end Tiles

section Linked

variable {link : ℕ → Heap.BlockLink} {s : Heap.State} {p q : Option ℕ} {b e n : ℕ}
  {F G bs cs : List Block}

/-- From one pointer the headers of these blocks lead to another. -/
def Segment (link : ℕ → Heap.BlockLink) : Option ℕ → List Block → Option ℕ → Prop
  | p, [], q => p = q
  | p, b :: bs, q => p = some b.addr ∧ (link b.addr).xBlockSize = b.size ∧
    (link b.addr).allocated = false ∧ Segment link (link b.addr).pxNextFreeBlock bs q

theorem Segment.congr {link' : ℕ → Heap.BlockLink} (h : Segment link p bs q)
    (heq : ∀ b ∈ bs, link' b.addr = link b.addr) : Segment link' p bs q := by
  induction bs generalizing p with
  | nil => exact h
  | cons b bs ih =>
    obtain ⟨hb, hbs⟩ := List.forall_mem_cons.mp heq
    obtain ⟨hp, hsize, hfree, hrest⟩ := h
    rw [← hb] at hsize hfree hrest
    exact ⟨hp, hsize, hfree, ih hrest hbs⟩

theorem segment_append : Segment link p (bs ++ cs) q ↔
    ∃ r, Segment link p bs r ∧ Segment link r cs q := by
  induction bs generalizing p with
  | nil => exact ⟨fun h ↦ ⟨p, rfl, h⟩, fun ⟨r, hr, h⟩ ↦ hr ▸ h⟩
  | cons b bs ih =>
    constructor
    · rintro ⟨hp, hsize, hfree, hrest⟩
      obtain ⟨r, hbs, hcs⟩ := ih.mp hrest
      exact ⟨r, ⟨hp, hsize, hfree, hbs⟩, hcs⟩
    · rintro ⟨r, ⟨hp, hsize, hfree, hbs⟩, hcs⟩
      exact ⟨hp, hsize, hfree, ih.mpr ⟨r, hbs, hcs⟩⟩

theorem Segment.cons (hb : link b = ⟨p, n, false⟩) (h : Segment link p bs q) :
    Segment link (some b) (⟨b, n⟩ :: bs) q := by
  refine ⟨rfl, ?_, ?_, ?_⟩
  · rw [hb]
  · rw [hb]
  · rw [hb]
    exact h

theorem Segment.exists_some (h : Segment link p bs (some e)) : ∃ q, p = some q := by
  cases bs with
  | nil => exact ⟨e, h⟩
  | cons b bs => exact ⟨b.addr, h.1⟩

/-- The last of the blocks, or else the pointer before them. -/
def lastOf : Option ℕ → List Block → Option ℕ
  | p, [] => p
  | _, b :: bs => lastOf (some b.addr) bs

@[simp]
theorem lastOf_concat (c : Block) : lastOf p (bs ++ [c]) = some c.addr := by
  induction bs generalizing p with
  | nil => rfl
  | cons b bs ih => exact ih

theorem next_lastOf {it : Option ℕ} (h : Segment s.link (s.next it) bs q) :
    s.next (lastOf it bs) = q := by
  induction bs generalizing it with
  | nil => exact h
  | cons b bs ih => exact ih h.2.2.2

/-- The loop stops behind the blocks that are below the one to insert. -/
theorem insertLoop_eq {it : Option ℕ} {q fuel : ℕ} (hF : Segment s.link (s.next it) F (some q))
    (hbelow : ∀ c ∈ F, c.addr < b) (hq : b ≤ q) (hfuel : F.length < fuel) :
    Heap.insertLoop s b fuel it = some (lastOf it F) := by
  induction F generalizing it fuel with
  | nil =>
    obtain ⟨fuel, rfl⟩ := Nat.exists_eq_succ_of_ne_zero (Nat.ne_of_gt hfuel)
    change s.next it = some q at hF
    rw [Heap.insertLoop, hF]
    exact if_neg (Nat.not_lt_of_le hq)
  | cons c F ih =>
    obtain ⟨fuel, rfl⟩ := Nat.exists_eq_succ_of_ne_zero (Nat.ne_of_gt (Nat.zero_lt_of_lt hfuel))
    obtain ⟨hc, hbelow⟩ := List.forall_mem_cons.mp hbelow
    obtain ⟨hp, -, -, hrest⟩ := hF
    rw [Heap.insertLoop, hp]
    refine (if_pos hc).trans (ih hrest hbelow ?_)
    exact Nat.lt_of_succ_lt_succ hfuel

/-- The block to insert is linked to those behind, and is one with the first if they touch. -/
theorem joinNext_eq {i : Option ℕ} {q : ℕ} (hit : s.next i = some q)
    (hG : Segment s.link (some q) G (some e)) (hend : s.pxEnd = some e)
    (hGe : ∀ c ∈ G, c.addr ≠ e) (hb : ∀ c ∈ G, c.addr ≠ b)
    (hsize : (s.link b).xBlockSize = n) (hfree : (s.link b).allocated = false) :
    ∃ q' n' G', joinNext ⟨b, n⟩ G = ⟨b, n'⟩ :: G' ∧ G'.Sublist G ∧
      Segment s.link (some q') G' (some e) ∧
      Heap.joinNext i b s =
        { s with link := Function.update s.link b ⟨some q', n', false⟩ } := by
  have hset (x : Option ℕ) : s.setNext (some b) x =
      { s with link := Function.update s.link b ⟨x, n, false⟩ } := by
    rw [Heap.State.setNext, ← hsize, ← hfree]
  rw [Heap.joinNext, hit, hsize]
  dsimp only
  cases G with
  | nil =>
    obtain rfl : q = e := Option.some.inj hG
    refine ⟨q, n, [], rfl, List.Sublist.refl _, rfl, ?_⟩
    split
    · rw [if_neg (not_not.mpr hend.symm), hset, hend]
    · exact hset _
  | cons c G =>
    obtain ⟨hq, hcsize, hcfree, hrest⟩ := hG
    obtain rfl : q = c.addr := Option.some.inj hq
    have hce : some c.addr ≠ s.pxEnd := by
      rw [hend]
      exact fun heq ↦ hGe c (List.mem_cons_self ..) (Option.some.inj heq)
    by_cases htouch : b + n = c.addr
    · obtain ⟨q', hq'⟩ := hrest.exists_some
      rw [hq'] at hrest
      refine ⟨q', n + c.size, G, if_pos htouch, List.sublist_cons_self .., hrest, ?_⟩
      rw [if_pos htouch, if_pos hce, hcsize, Heap.State.setSize, Heap.State.setNext]
      simp only [Function.update_self, Function.update_idem,
        Function.update_of_ne (hb c (List.mem_cons_self ..)), hq']
    · refine ⟨c.addr, n, c :: G, if_neg htouch, List.Sublist.refl _,
        ⟨rfl, hcsize, hcfree, hrest⟩, ?_⟩
      rw [if_neg htouch, hset]

theorem prvInsertBlockIntoFreeList_of {i : Option ℕ} {b' : ℕ} {s₁ : Heap.State}
    (hloop : Heap.insertLoop s b Heap.configTotalHeapSize none = some i)
    (hprevious : Heap.joinPrevious i b s = (b', s₁)) :
    Heap.prvInsertBlockIntoFreeList b s = some (if i ≠ some b' then
      (Heap.joinNext i b' s₁).setNext i (some b') else Heap.joinNext i b' s₁) := by
  rw [Heap.prvInsertBlockIntoFreeList, hloop]
  simp only [Option.bind_eq_bind, Option.bind_some, hprevious]
  rfl

section Insert

variable {q : ℕ} {c : Block}

/-- In front of all free blocks. -/
theorem insert_front (hsG : Segment s.link (some q) G (some e)) (hend : s.pxEnd = some e)
    (hGne : ∀ d ∈ G, d.addr ≠ e) (hGb : ∀ d ∈ G, d.addr ≠ b) (hsize : (s.link b).xBlockSize = n)
    (hfree : (s.link b).allocated = false) (hnext : s.next none = some q)
    (hloop : Heap.insertLoop s b Heap.configTotalHeapSize none = some none) :
    ∃ link', Heap.prvInsertBlockIntoFreeList b s =
        some { s with link := link', xStart := some b } ∧
      Segment link' (some b) (joinNext ⟨b, n⟩ G) (some e) ∧
      ∀ a, a ≠ b → link' a = s.link a := by
  obtain ⟨q', n', G', hjoin, hsub, hsG', heq⟩ := joinNext_eq hnext hsG hend hGne hGb hsize hfree
  refine ⟨Function.update s.link b ⟨some q', n', false⟩, ?_, ?_,
    fun a ha ↦ Function.update_of_ne ha ..⟩
  · refine (prvInsertBlockIntoFreeList_of hloop rfl).trans (congrArg some ?_)
    rw [if_pos (Option.some_ne_none b).symm, heq]
    rfl
  · rw [hjoin]
    refine Segment.cons (Function.update_self ..) (hsG'.congr fun d hd ↦ ?_)
    exact Function.update_of_ne (hGb d (hsub.subset hd)) ..

/-- Right behind a free block, of which the block becomes a part. -/
theorem insert_touching (hsF : Segment s.link s.xStart F (some c.addr))
    (hc : s.link c.addr = ⟨some q, c.size, false⟩) (hsG : Segment s.link (some q) G (some e))
    (hend : s.pxEnd = some e) (hGne : ∀ d ∈ G, d.addr ≠ e) (hFc : ∀ d ∈ F, d.addr ≠ c.addr)
    (hGc : ∀ d ∈ G, d.addr ≠ c.addr) (hsize : (s.link b).xBlockSize = n)
    (htouch : c.addr + c.size = b)
    (hloop : Heap.insertLoop s b Heap.configTotalHeapSize none = some (some c.addr)) :
    ∃ link', Heap.prvInsertBlockIntoFreeList b s = some { s with link := link' } ∧
      Segment link' s.xStart (F ++ joinNext ⟨c.addr, c.size + n⟩ G) (some e) ∧
      ∀ a, a ≠ c.addr → link' a = s.link a := by
  let s₁ := s.setSize c.addr (c.size + n)
  have hframe {d : ℕ} (hd : d ≠ c.addr) : s₁.link d = s.link d := Function.update_of_ne hd ..
  have hself : s₁.link c.addr = ⟨some q, c.size + n, false⟩ := by
    refine (Function.update_self ..).trans ?_
    rw [hc]
  have hprevious : Heap.joinPrevious (some c.addr) b s = (c.addr, s₁) := by
    refine (if_pos (by rw [hc, htouch])).trans ?_
    rw [hc, hsize]
  obtain ⟨q', n', G', hjoin, hsub, hsG', heq⟩ := joinNext_eq (s := s₁) (i := some c.addr)
    (b := c.addr) (n := c.size + n) (congrArg Heap.BlockLink.pxNextFreeBlock hself)
    (hsG.congr fun d hd ↦ hframe (hGc d hd)) hend hGne hGc
    (congrArg Heap.BlockLink.xBlockSize hself) (congrArg Heap.BlockLink.allocated hself)
  refine ⟨Function.update s.link c.addr ⟨some q', n', false⟩, ?_, ?_,
    fun a ha ↦ Function.update_of_ne ha ..⟩
  · rw [prvInsertBlockIntoFreeList_of hloop hprevious, if_neg (not_not.mpr rfl), heq]
    simp only [s₁, Heap.State.setSize, Function.update_idem]
  · rw [hjoin]
    refine segment_append.mpr ⟨_, hsF.congr fun d hd ↦ Function.update_of_ne (hFc d hd) ..,
      Segment.cons (Function.update_self ..) (hsG'.congr fun d hd ↦ ?_)⟩
    rw [Function.update_of_ne (hGc d (hsub.subset hd)), hframe (hGc d (hsub.subset hd))]

/-- Behind a free block, with a gap between. -/
theorem insert_behind (hsF : Segment s.link s.xStart F (some c.addr))
    (hc : s.link c.addr = ⟨some q, c.size, false⟩) (hsG : Segment s.link (some q) G (some e))
    (hend : s.pxEnd = some e) (hGne : ∀ d ∈ G, d.addr ≠ e) (hFc : ∀ d ∈ F, d.addr ≠ c.addr)
    (hGc : ∀ d ∈ G, d.addr ≠ c.addr) (hFb : ∀ d ∈ F, d.addr ≠ b) (hcb : c.addr ≠ b)
    (hGb : ∀ d ∈ G, d.addr ≠ b) (hsize : (s.link b).xBlockSize = n)
    (hfree : (s.link b).allocated = false) (htouch : c.addr + c.size ≠ b)
    (hloop : Heap.insertLoop s b Heap.configTotalHeapSize none = some (some c.addr)) :
    ∃ link', Heap.prvInsertBlockIntoFreeList b s = some { s with link := link' } ∧
      Segment link' s.xStart (F ++ c :: joinNext ⟨b, n⟩ G) (some e) ∧
      ∀ a, a ≠ b → a ≠ c.addr → link' a = s.link a := by
  have hnext : s.next (some c.addr) = some q := congrArg Heap.BlockLink.pxNextFreeBlock hc
  have hprevious : Heap.joinPrevious (some c.addr) b s = (b, s) :=
    if_neg (by rw [hc]; exact htouch)
  obtain ⟨q', n', G', hjoin, hsub, hsG', heq⟩ := joinNext_eq hnext hsG hend hGne hGb hsize hfree
  let link₁ := Function.update s.link b ⟨some q', n', false⟩
  have hcold : link₁ c.addr = ⟨some q, c.size, false⟩ := (Function.update_of_ne hcb ..).trans hc
  have hframe {a : ℕ} (hab : a ≠ b) (hac : a ≠ c.addr) :
      Function.update link₁ c.addr ⟨some b, c.size, false⟩ a = s.link a :=
    (Function.update_of_ne hac ..).trans (Function.update_of_ne hab ..)
  refine ⟨Function.update link₁ c.addr ⟨some b, c.size, false⟩, ?_, ?_, fun a ↦ hframe⟩
  · have hne : some c.addr ≠ some b := fun hsame ↦ hcb (Option.some.inj hsame)
    rw [prvInsertBlockIntoFreeList_of hloop hprevious, if_pos hne, heq, Heap.State.setNext]
    change some { s with
      link := Function.update link₁ c.addr
        ⟨some b, (link₁ c.addr).xBlockSize, (link₁ c.addr).allocated⟩ } = _
    rw [hcold]
  · rw [hjoin]
    refine segment_append.mpr ⟨_, hsF.congr fun d hd ↦ hframe (hFb d hd) (hFc d hd),
      Segment.cons (Function.update_self ..) (Segment.cons ?_ (hsG'.congr fun d hd ↦ ?_))⟩
    · exact (Function.update_of_ne hcb.symm ..).trans (Function.update_self ..)
    · exact hframe (hGb d (hsub.subset hd)) (hGc d (hsub.subset hd))

end Insert

/-- The block is put in its place among those that are free, and only its header and those of
the free blocks below it are written. -/
theorem prvInsertBlockIntoFreeList_eq (hs : Segment s.link s.xStart (F ++ G) (some e))
    (hsorted : (F ++ G).Pairwise fun c d ↦ c.addr < d.addr) (hF : ∀ c ∈ F, c.addr < b)
    (hG : ∀ c ∈ G, b < c.addr) (hbe : b < e) (hGe : ∀ c ∈ G, c.addr < e)
    (hend : s.pxEnd = some e) (hsize : (s.link b).xBlockSize = n)
    (hfree : (s.link b).allocated = false) (hfuel : F.length < Heap.configTotalHeapSize) :
    ∃ link' x, Heap.prvInsertBlockIntoFreeList b s = some { s with link := link', xStart := x } ∧
      Segment link' x (insert ⟨b, n⟩ (F ++ G)) (some e) ∧
      ∀ a, a ≠ b → (∀ c ∈ F, a ≠ c.addr) → link' a = s.link a := by
  obtain ⟨r, hsF, hsG⟩ := segment_append.mp hs
  obtain ⟨q, rfl⟩ := hsG.exists_some
  have hq : b ≤ q := by
    cases G with
    | nil =>
      obtain rfl : q = e := Option.some.inj hsG
      exact Nat.le_of_lt hbe
    | cons c G =>
      obtain rfl : q = c.addr := Option.some.inj hsG.1
      exact Nat.le_of_lt (hG c (List.mem_cons_self ..))
  have hloop : Heap.insertLoop s b Heap.configTotalHeapSize none = some (lastOf none F) :=
    insertLoop_eq hsF hF hq hfuel
  have hGb : ∀ c ∈ G, c.addr ≠ b := fun c hc ↦ Nat.ne_of_gt (hG c hc)
  have hGne : ∀ c ∈ G, c.addr ≠ e := fun c hc ↦ Nat.ne_of_lt (hGe c hc)
  rw [insert, insertFrom_eq hF fun c hc ↦ Nat.le_of_lt (hG c hc)]
  change ∃ link' x, _ ∧ Segment link' x (F.dropLast ++ join F.getLast? _ _) _ ∧ _
  induction F using List.reverseRecOn with
  | nil =>
    obtain ⟨link', heq, hsegment, hframe⟩ :=
      insert_front hsG hend hGne hGb hsize hfree hsF hloop
    exact ⟨link', some b, heq, hsegment, fun a ha _ ↦ hframe a ha⟩
  | append_singleton F c _ =>
    obtain ⟨r, hsF, hr, hcsize, hcfree, hcnext⟩ := segment_append.mp hsF
    subst hr
    have hc : s.link c.addr = ⟨some q, c.size, false⟩ := by
      change (s.link c.addr).pxNextFreeBlock = some q at hcnext
      rw [← hcnext, ← hcsize, ← hcfree]
    obtain ⟨hsortedF, -, hFG⟩ := List.pairwise_append.mp hsorted
    have hFc : ∀ d ∈ F, d.addr ≠ c.addr := fun d hd ↦
      Nat.ne_of_lt ((List.pairwise_append.mp hsortedF).2.2 d hd c (List.mem_singleton_self c))
    have hGc : ∀ d ∈ G, d.addr ≠ c.addr := fun d hd ↦ Nat.ne_of_gt (hFG c (by simp) d hd)
    rw [lastOf_concat] at hloop
    rw [List.dropLast_concat, List.getLast?_concat, join]
    by_cases htouch : c.addr + c.size = b
    · obtain ⟨link', heq, hsegment, hframe⟩ :=
        insert_touching hsF hc hsG hend hGne hFc hGc hsize htouch hloop
      rw [if_pos htouch]
      exact ⟨link', s.xStart, heq, hsegment, fun a _ ha ↦ hframe a (ha c (by simp))⟩
    · obtain ⟨link', heq, hsegment, hframe⟩ := insert_behind hsF hc hsG hend hGne hFc hGc
        (fun d hd ↦ Nat.ne_of_lt (hF d (by simp [hd]))) (Nat.ne_of_lt (hF c (by simp))) hGb hsize
        hfree htouch hloop
      rw [if_neg htouch]
      exact ⟨link', s.xStart, heq, hsegment, fun a ha haF ↦ hframe a ha (haF c (by simp))⟩

/-- The loop of `pvPortMalloc` stops at the first block that is large enough, or else at
`pxEnd`. -/
theorem searchLoop_eq {i : Option ℕ} {p fuel w : ℕ} (hbs : Segment s.link (some p) bs (some e))
    (hlast : s.link e = ⟨none, 0, false⟩) (hw : 0 < w) (hfuel : bs.length < fuel) :
    Heap.searchLoop s w fuel i p = some (match search w bs with
      | none => (lastOf i bs, e)
      | some (xs, b, _) => (lastOf i xs, b.addr)) := by
  induction bs generalizing i p fuel with
  | nil =>
    obtain ⟨fuel, rfl⟩ := Nat.exists_eq_succ_of_ne_zero (Nat.ne_of_gt hfuel)
    obtain rfl : p = e := Option.some.inj hbs
    rw [Heap.searchLoop, hlast, if_pos hw]
    rfl
  | cons b bs ih =>
    obtain ⟨fuel, rfl⟩ := Nat.exists_eq_succ_of_ne_zero (Nat.ne_of_gt (Nat.zero_lt_of_lt hfuel))
    obtain ⟨hp, hsize, -, hrest⟩ := hbs
    obtain rfl : p = b.addr := Option.some.inj hp
    rw [Heap.searchLoop, search, hsize]
    split
    · obtain ⟨q, hq⟩ := hrest.exists_some
      rw [hq] at hrest ⊢
      refine (ih hrest (Nat.lt_of_succ_lt_succ hfuel)).trans ?_
      cases search w bs <;> rfl
    · rfl

/-- A block is taken out of the list, and only a header before it is written. -/
theorem unlink_eq {c : Block} (hs : Segment s.link s.xStart (F ++ c :: G) (some e))
    (hsorted : (F ++ c :: G).Pairwise fun c d ↦ c.addr < d.addr) :
    ∃ link' x, s.setNext (lastOf none F) (s.link c.addr).pxNextFreeBlock =
        { s with link := link', xStart := x } ∧
      Segment link' x (F ++ G) (some e) ∧ ∀ a, (∀ d ∈ F, a ≠ d.addr) → link' a = s.link a := by
  obtain ⟨r, hsF, hr, -, -, hsG⟩ := segment_append.mp hs
  subst hr
  induction F using List.reverseRecOn with
  | nil => exact ⟨s.link, _, rfl, hsG, fun _ _ ↦ rfl⟩
  | append_singleton F d _ =>
    obtain ⟨r, hsF, hr, hdsize, hdfree, -⟩ := segment_append.mp hsF
    subst hr
    obtain ⟨hsortedF, -, hFG⟩ := List.pairwise_append.mp hsorted
    have hFd : ∀ b ∈ F, b.addr ≠ d.addr := fun b hb ↦
      Nat.ne_of_lt ((List.pairwise_append.mp hsortedF).2.2 b hb d (List.mem_singleton_self d))
    have hGd : ∀ b ∈ G, b.addr ≠ d.addr := fun b hb ↦
      Nat.ne_of_gt (hFG d (by simp) b (List.mem_cons_of_mem c hb))
    rw [lastOf_concat]
    refine ⟨_, s.xStart, rfl, ?_, fun a ha ↦ Function.update_of_ne (ha d (by simp)) ..⟩
    rw [List.append_assoc]
    refine segment_append.mpr ⟨_, hsF.congr fun b hb ↦ Function.update_of_ne (hFd b hb) .., rfl,
      ?_, ?_, ?_⟩
    · rw [Function.update_self]
      exact hdsize
    · rw [Function.update_self]
      exact hdfree
    · rw [Function.update_self]
      exact hsG.congr fun b hb ↦ Function.update_of_ne (hGd b hb) ..

end Linked

end Tanenbaum.Kernel.FreeList
