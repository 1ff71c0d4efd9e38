/-
# ColabEdit.Browser.Writes -- the document a set of writes determines

The abstract view of a tag list: a set `W` of writes, each a tag with a code, `0`
for a deletion.  A list `Records` the set when it holds `'0'`, `'1'` and every
tag that was inserted, each once, and hides exactly what was deleted.  The order
of the writes does not matter, except that a tag must be inserted before anything
else is written to it.

* `Records.mark`, `Records.push`, `Records.attachAll` and `Records.attachBatches`
  add writes;
* `Records.text_eq`: the text is what survives, in the order of the tags.
-/
import ColabEdit.Browser.Client

namespace ColabEdit.Browser

open BigTag
open ColabEdit.Theory

set_option autoImplicit false

namespace Pps

section Records

variable {Tag Num : Type} [LinearOrder Tag] [BigTag Tag Num]

structure Records (W : Tag → CharCode → Prop) (s : Pps Tag) : Prop where
  sorted : s.ppsTags.Pairwise (· ≤ ·)
  nodup : s.ppsTags.Nodup
  mem : ∀ t, t ∈ s.ppsTags ↔ t = tag0 ∨ t = tag1 ∨ ∃ ch, ch ≠ 0 ∧ W t ch
  hidden : ∀ t, W t 0 → s.pps t = some 0
  shown : ∀ t ch, W t ch → ¬ W t 0 → s.pps t = some ch
  end0 : s.pps tag0 = some 0
  end1 : s.pps tag1 = some 0

namespace Records

variable {W W' : Tag → CharCode → Prop} {s : Pps Tag}

theorem congr (records : Records W s) (same : ∀ t ch, W t ch ↔ W' t ch) : Records W' s := by
  obtain rfl : W = W' := funext fun t => funext fun ch => propext (same t ch)
  exact records

theorem fresh : Records (fun _ _ => False) (fresh : Pps Tag) where
  sorted := framed_fresh.sorted
  nodup := by simpa [Pps.fresh] using (tag0_lt_tag1 : (tag0 : Tag) < tag1).ne
  mem := by simp [Pps.fresh]
  hidden := fun _ h => h.elim
  shown := fun _ _ h => h.elim
  end0 := framed_fresh.hidden0
  end1 := framed_fresh.hidden1

/-- A deletion may come at any time. -/
theorem mark (records : Records W s) (t : Tag) (ack : Bool) :
    Records (fun u x => W u x ∨ (u = t ∧ x = 0)) (s.mark t 0 ack) where
  sorted := records.sorted
  nodup := records.nodup
  mem := fun u => by
    rw [mark_ppsTags, records.mem]
    constructor
    · rintro (zero | one | ⟨ch, ne, write⟩)
      · exact Or.inl zero
      · exact Or.inr (Or.inl one)
      · exact Or.inr (Or.inr ⟨ch, ne, Or.inl write⟩)
    · rintro (zero | one | ⟨ch, ne, write | ⟨-, zero⟩⟩)
      · exact Or.inl zero
      · exact Or.inr (Or.inl one)
      · exact Or.inr (Or.inr ⟨ch, ne, write⟩)
      · exact absurd zero ne
  hidden := by
    rintro u (write | ⟨rfl, -⟩)
    · by_cases same : u = t
      · simp [same]
      · rw [mark_pps_ne s same]
        exact records.hidden u write
    · simp
  shown := by
    rintro u ch (write | ⟨rfl, rfl⟩) kept
    · have same : u ≠ t := fun same => kept (Or.inr ⟨same, rfl⟩)
      rw [mark_pps_ne s same]
      exact records.shown u ch write fun gone => kept (Or.inl gone)
    · exact absurd (Or.inr ⟨rfl, rfl⟩) kept
  end0 := by by_cases same : tag0 = t <;> simp [Pps.mark, same, records.end0]
  end1 := by by_cases same : tag1 = t <;> simp [Pps.mark, same, records.end1]

/-- An insertion must be the first write to its tag. -/
theorem push (records : Records W s) {t : Tag} {ch : CharCode} (ne : ch ≠ 0) (zero : t ≠ tag0)
    (one : t ≠ tag1) (first : ∀ x, ¬ W t x) (ack : Bool) :
    Records (fun u x => W u x ∨ (u = t ∧ x = ch)) (s.push t ch ack) where
  sorted := sorted_push s t ch ack
  nodup := by
    have absent : t ∉ s.ppsTags := fun member => by
      rcases (records.mem t).1 member with h | h | ⟨x, -, write⟩
      · exact zero h
      · exact one h
      · exact first x write
    refine (List.perm_insertionSort _ _).nodup_iff.2
      (List.nodup_append.2 ⟨records.nodup, by simp, fun u member v single => ?_⟩)
    rw [List.mem_singleton.1 single]
    exact fun same => absent (same ▸ member)
  mem := fun u => by
    rw [mem_push, records.mem]
    constructor
    · rintro ((h | h | ⟨x, visible, write⟩) | rfl)
      · exact Or.inl h
      · exact Or.inr (Or.inl h)
      · exact Or.inr (Or.inr ⟨x, visible, Or.inl write⟩)
      · exact Or.inr (Or.inr ⟨ch, ne, Or.inr ⟨rfl, rfl⟩⟩)
    · rintro (h | h | ⟨x, visible, write | ⟨same, -⟩⟩)
      · exact Or.inl (Or.inl h)
      · exact Or.inl (Or.inr (Or.inl h))
      · exact Or.inl (Or.inr (Or.inr ⟨x, visible, write⟩))
      · exact Or.inr same
  hidden := by
    rintro u (write | ⟨rfl, none⟩)
    · have same : u ≠ t := fun same => first 0 (same ▸ write)
      rw [push_pps, mark_pps_ne s same]
      exact records.hidden u write
    · exact absurd none.symm ne
  shown := by
    rintro u x (write | ⟨rfl, rfl⟩) kept
    · have same : u ≠ t := fun same => first x (same ▸ write)
      rw [push_pps, mark_pps_ne s same]
      exact records.shown u x write fun gone => kept (Or.inl gone)
    · simp
  end0 := by rw [push_pps, mark_pps_ne s zero.symm]; exact records.end0
  end1 := by rw [push_pps, mark_pps_ne s one.symm]; exact records.end1

/-- A batch is attached entry by entry; its insertions must be first writes. -/
theorem attachAll {entries : List (Tag × CharCode)} (records : Records W s)
    (nodup : (entries.map Prod.fst).Nodup)
    (first : ∀ e ∈ entries, e.2 ≠ 0 → e.1 ≠ tag0 ∧ e.1 ≠ tag1 ∧ ∀ x, ¬ W e.1 x) :
    Records (fun t ch => W t ch ∨ (t, ch) ∈ entries) (s.attachAll entries) := by
  induction entries generalizing W s with
  | nil => exact records.congr fun t ch => by simp
  | cons e rest ih =>
      obtain ⟨absent, nodup⟩ := List.nodup_cons.1 nodup
      have head : Records (fun t ch => W t ch ∨ (t = e.1 ∧ ch = e.2)) (s.attach e.1 e.2) := by
        by_cases zero : e.2 = 0
        · rw [zero, attach_zero]
          exact records.mark e.1 true
        · obtain ⟨not0, not1, first_e⟩ := first e (by simp) zero
          rw [attach_of_ne s e.1 zero]
          exact records.push zero not0 not1 first_e true
      have tail := ih head nodup fun d member ne => by
        obtain ⟨not0, not1, first_d⟩ := first d (by simp [member]) ne
        refine ⟨not0, not1, fun x write => ?_⟩
        rcases write with write | ⟨same, -⟩
        · exact first_d x write
        · exact absent (same ▸ List.mem_map_of_mem member)
      refine tail.congr fun t ch => ?_
      rw [List.mem_cons, or_assoc, Prod.ext_iff]

/-- Batches are attached one after the other; a batch may only delete what an
earlier one wrote. -/
theorem attachBatches {transactions : List (Nat × List (Tag × CharCode))} (records : Records W s)
    (nodup : ∀ b ∈ transactions, (b.2.map Prod.fst).Nodup)
    (first : ∀ b ∈ transactions, ∀ e ∈ b.2, e.2 ≠ 0 → e.1 ≠ tag0 ∧ e.1 ≠ tag1 ∧ ∀ x, ¬ W e.1 x)
    (later : transactions.Pairwise fun b b' => ∀ t x ch, (t, x) ∈ b.2 → (t, ch) ∈ b'.2 → ch = 0) :
    Records (fun t ch => W t ch ∨ ∃ b ∈ transactions, (t, ch) ∈ b.2)
      (s.attachAll (transactions.flatMap Prod.snd)) := by
  induction transactions generalizing W s with
  | nil => exact records.congr fun t ch => by simp
  | cons b rest ih =>
      obtain ⟨behind, later⟩ := List.pairwise_cons.1 later
      have head := records.attachAll (nodup b (by simp)) (first b (by simp))
      have tail := ih head (fun b' member => nodup b' (by simp [member]))
        (fun b' member e inBatch ne => by
          obtain ⟨not0, not1, fresh⟩ := first b' (by simp [member]) e inBatch ne
          refine ⟨not0, not1, fun x write => ?_⟩
          rcases write with write | write
          · exact fresh x write
          · exact ne (behind b' member e.1 x e.2 write inBatch)) later
      have joined : s.attachAll ((b :: rest).flatMap Prod.snd) =
          (s.attachAll b.2).attachAll (rest.flatMap Prod.snd) := by
        simp [Pps.attachAll]
      rw [joined]
      refine tail.congr fun t ch => ?_
      rw [List.exists_mem_cons_iff, or_assoc]

end Records

/-! ## The text -/

/-- The entries of a list in the order of their tags. -/
def byTag (entries : List (Tag × CharCode)) : List (Tag × CharCode) :=
  entries.insertionSort fun a b => a.1 ≤ b.1

theorem perm_byTag (entries : List (Tag × CharCode)) : (byTag entries).Perm entries :=
  List.perm_insertionSort _ entries

theorem strict_byTag {entries : List (Tag × CharCode)} (nodup : (entries.map Prod.fst).Nodup) :
    ((byTag entries).map Prod.fst).Pairwise (· < ·) := by
  have : Std.Total fun a b : Tag × CharCode => a.1 ≤ b.1 := ⟨fun a b => le_total a.1 b.1⟩
  have : IsTrans (Tag × CharCode) fun a b => a.1 ≤ b.1 := ⟨fun _ _ _ => le_trans⟩
  refine SortedList.strict_of_nodup ?_ ?_
  · exact List.pairwise_map.2 (List.pairwise_insertionSort _ entries)
  · exact ((perm_byTag entries).map Prod.fst).nodup_iff.2 nodup

/-- **The text is what survives.** -/
theorem Records.text_eq {W : Tag → CharCode → Prop} {s : Pps Tag} (records : Records W s)
    {survivors : List (Tag × CharCode)} (nodup : (survivors.map Prod.fst).Nodup)
    (survive : ∀ t ch, (t, ch) ∈ survivors ↔
      ch ≠ 0 ∧ W t ch ∧ ¬ W t 0 ∧ tag0 < t ∧ t < tag1) :
    s.text = some ((byTag survivors).map fun e => fromCharCode e.2) := by
  have zero : tag0 ∈ s.ppsTags := (records.mem _).2 (Or.inl rfl)
  have one : tag1 ∈ s.ppsTags := (records.mem _).2 (Or.inr (Or.inl rfl))
  rw [text_of_sorted records.sorted zero one records.end1, textOf_filter]
  have sameList : s.visible.filter (fun t => tag0 ≤ t ∧ t < tag1) = (byTag survivors).map Prod.fst := by
    refine SortedList.eq_of_mem_iff ?_ (strict_byTag nodup) fun t => ?_
    · exact ((SortedList.strict_of_nodup records.sorted records.nodup).filter _).filter _
    have inSurvivors : t ∈ (byTag survivors).map Prod.fst ↔ ∃ ch, (t, ch) ∈ survivors := by
      rw [((perm_byTag survivors).map Prod.fst).mem_iff, List.mem_map]
      exact ⟨fun ⟨e, member, same⟩ => ⟨e.2, same ▸ member⟩, fun ⟨ch, member⟩ => ⟨_, member, rfl⟩⟩
    rw [inSurvivors, List.mem_filter, decide_eq_true_eq, visible, List.mem_filter, shown_eq_true]
    constructor
    · rintro ⟨⟨member, visible⟩, low, high⟩
      have low : tag0 < t := lt_of_le_of_ne low fun same => visible (same ▸ records.end0)
      rcases (records.mem t).1 member with rfl | rfl | ⟨ch, ne, write⟩
      · exact absurd low (lt_irrefl _)
      · exact absurd high (lt_irrefl _)
      · exact ⟨ch, (survive t ch).2
          ⟨ne, write, fun gone => visible (records.hidden t gone), low, high⟩⟩
    · rintro ⟨ch, member⟩
      obtain ⟨ne, write, kept, low, high⟩ := (survive t ch).1 member
      refine ⟨⟨(records.mem t).2 (Or.inr (Or.inr ⟨ch, ne, write⟩)), ?_⟩, low.le, high⟩
      rw [records.shown t ch write kept]
      simpa using ne
  rw [sameList, List.map_map]
  congr 1
  refine List.map_congr_left fun e member => ?_
  have inSurvivors : (e.1, e.2) ∈ survivors := (perm_byTag survivors).mem_iff.1 member
  obtain ⟨-, write, kept, -, -⟩ := (survive e.1 e.2).1 inSurvivors
  simp [char, records.shown e.1 e.2 write kept]

end Records

end Pps

end ColabEdit.Browser
