/-
# ColabEdit.Session.Trace -- what a trace inserted, deleted, stored and wrote

Readings of the trace of a session: the insertions and deletions of all pages,
the batches stored for one of them, and the writes a page has made to its
document, by its own edits and by what it applied.  Under `Distinct` the trace
has one author for every tag.
-/
import ColabEdit.Session.Roster

namespace ColabEdit.Session

open ColabEdit.Browser ColabEdit.Browser.BigTag ColabEdit.Server ColabEdit.Theory

set_option autoImplicit false
set_option linter.unusedSectionVars false

section Trace

variable {C Name Tag Num : Type} [DecidableEq C] [LinearOrder Tag] [BigTag Tag Num]

/-! ## What a trace inserted, deleted and stored -/

def Event.insertion : Event C Tag → Option (Tag × CharCode)
  | .inserted _ _ _ ch tag => some (tag, ch)
  | _ => none

def Event.deletion : Event C Tag → Option Tag
  | .deleted _ tag => some tag
  | _ => none

/-- The tags that `PPS.insert` returned, with their codes. -/
def inserted (τ : List (Event C Tag)) : List (Tag × CharCode) := τ.filterMap Event.insertion

def deletedTags (τ : List (Event C Tag)) : List Tag := τ.filterMap Event.deletion

/-- The tags are pairwise different and none of `'0'` and `'1'`; the codes are
those of characters. -/
structure Distinct (τ : List (Event C Tag)) : Prop where
  nodup : ((inserted τ).map Prod.fst).Nodup
  proper : ∀ e ∈ inserted τ, e.1 ≠ tag0 ∧ e.1 ≠ tag1 ∧ e.2 ≠ 0

def Inserts (τ : List (Event C Tag)) (c : C) (t : Tag) (ch : CharCode) : Prop :=
  ∃ before pos, Event.inserted c before pos ch t ∈ τ

/-- The page of `c` has written `ch` to `t`. -/
def Wrote (τ : List (Event C Tag)) (c : C) (t : Tag) (ch : CharCode) : Prop :=
  Inserts τ c t ch ∨ (ch = 0 ∧ Event.deleted c t ∈ τ) ∨
    ∃ id entries, Event.applied c id entries ∈ τ ∧ (t, ch) ∈ entries

instance [DecidableEq Tag] (τ : List (Event C Tag)) : Decidable (Distinct τ) :=
  decidable_of_iff (((inserted τ).map Prod.fst).Nodup ∧
      ∀ e ∈ inserted τ, e.1 ≠ tag0 ∧ e.1 ≠ tag1 ∧ e.2 ≠ 0)
    ⟨fun h => ⟨h.1, h.2⟩, fun h => ⟨h.nodup, h.proper⟩⟩

/-- The batches the server stored for `c`, in order. -/
def storedBy (τ : List (Event C Tag)) (c : C) : List (Nat × Batch Tag) :=
  τ.filterMap fun
    | .stored u id batch => if u = c then some (id, batch) else none
    | _ => none

/-- The batches the page of `c` applied, in order. -/
def appliedBy (τ : List (Event C Tag)) (c : C) : List (Nat × List (Tag × CharCode)) :=
  τ.filterMap fun
    | .applied u id entries => if u = c then some (id, entries) else none
    | _ => none

variable {τ τ' evs : List (Event C Tag)} {c u : C} {t : Tag} {ch x : CharCode}

theorem mem_inserted : (t, ch) ∈ inserted τ ↔ ∃ c, Inserts τ c t ch := by
  simp only [inserted, List.mem_filterMap]
  constructor
  · rintro ⟨e, member, same⟩
    cases e with
    | inserted c before pos x tag =>
        cases same
        exact ⟨c, before, pos, member⟩
    | deleted => cases same
    | stored => cases same
    | applied => cases same
  · rintro ⟨c, before, pos, member⟩
    exact ⟨_, member, rfl⟩

theorem mem_deletedTags : t ∈ deletedTags τ ↔ ∃ c, Event.deleted c t ∈ τ := by
  simp only [deletedTags, List.mem_filterMap]
  constructor
  · rintro ⟨e, member, same⟩
    cases e with
    | deleted c tag =>
        cases same
        exact ⟨c, member⟩
    | inserted => cases same
    | stored => cases same
    | applied => cases same
  · rintro ⟨c, member⟩
    exact ⟨_, member, rfl⟩

theorem mem_storedBy {id : Nat} {batch : Batch Tag} :
    (id, batch) ∈ storedBy τ c ↔ Event.stored c id batch ∈ τ := by
  simp only [storedBy, List.mem_filterMap]
  constructor
  · rintro ⟨e, member, same⟩
    cases e with
    | stored u i b =>
        simp only at same
        split at same
        · rename_i author
          cases same
          exact author ▸ member
        · cases same
    | inserted => cases same
    | deleted => cases same
    | applied => cases same
  · intro member
    exact ⟨_, member, by simp⟩

theorem mem_appliedBy {id : Nat} {entries : List (Tag × CharCode)} :
    (id, entries) ∈ appliedBy τ c ↔ Event.applied c id entries ∈ τ := by
  simp only [appliedBy, List.mem_filterMap]
  constructor
  · rintro ⟨e, member, same⟩
    cases e with
    | applied u i es =>
        simp only at same
        split at same
        · rename_i reader
          cases same
          exact reader ▸ member
        · cases same
    | inserted => cases same
    | deleted => cases same
    | stored => cases same
  · intro member
    exact ⟨_, member, by simp⟩

theorem storedBy_append : storedBy (τ ++ evs) c = storedBy τ c ++ storedBy evs c :=
  List.filterMap_append

theorem storedBy_eq_nil (unstored : ∀ id batch, Event.stored c id batch ∉ evs) : storedBy evs c = [] :=
  List.eq_nil_iff_forall_not_mem.2 fun e member => unstored e.1 e.2 (mem_storedBy.1 member)

omit [DecidableEq C] in
theorem Distinct.prefix_ (distinct : Distinct (τ ++ evs)) : Distinct τ where
  nodup := by
    have := distinct.nodup
    rw [inserted, List.filterMap_append, List.map_append] at this
    exact (List.nodup_append.1 this).1
  proper := fun e member => distinct.proper e (by
    rw [inserted, List.filterMap_append]
    exact List.mem_append_left _ member)

/-- Two insertions of one tag are the same event. -/
theorem insertion_unique (nodup : ((inserted τ).map Prod.fst).Nodup) {e e' : Event C Tag}
    (member : e ∈ τ) (member' : e' ∈ τ) {i i' : Tag × CharCode} (first : e.insertion = some i)
    (second : e'.insertion = some i') (same : i.1 = i'.1) : e = e' := by
  induction τ with
  | nil => cases member
  | cons d rest ih =>
      have later : ∀ {e : Event C Tag} {i : Tag × CharCode}, e ∈ rest → e.insertion = some i →
          i ∈ inserted rest := fun member is => List.mem_filterMap.2 ⟨_, member, is⟩
      rcases hd : d.insertion with _ | y
      · have tail : inserted (d :: rest) = inserted rest := List.filterMap_cons_none hd
        rw [tail] at nodup
        rcases List.mem_cons.1 member with rfl | member
        · cases hd.symm.trans first
        · rcases List.mem_cons.1 member' with rfl | member'
          · cases hd.symm.trans second
          · exact ih nodup member member'
      · have tail : inserted (d :: rest) = y :: inserted rest := List.filterMap_cons_some hd
        rw [tail, List.map_cons, List.nodup_cons] at nodup
        rcases List.mem_cons.1 member with here | inRest <;>
          rcases List.mem_cons.1 member' with here' | inRest'
        · exact here.trans here'.symm
        · cases (here ▸ hd).symm.trans first
          exact absurd (same ▸ List.mem_map_of_mem (later inRest' second)) nodup.1
        · cases (here' ▸ hd).symm.trans second
          exact absurd (same ▸ List.mem_map_of_mem (later inRest first)) nodup.1
        · exact ih nodup.2 inRest inRest'

theorem Distinct.author (distinct : Distinct τ) (first : Inserts τ c t ch) (second : Inserts τ u t x) :
    c = u ∧ ch = x := by
  obtain ⟨before, pos, member⟩ := first
  obtain ⟨before', pos', member'⟩ := second
  cases insertion_unique distinct.nodup member member' rfl rfl rfl
  exact ⟨rfl, rfl⟩

theorem Distinct.tag (distinct : Distinct τ) (inserts : Inserts τ c t ch) :
    t ≠ tag0 ∧ t ≠ tag1 ∧ ch ≠ 0 :=
  distinct.proper (t, ch) (mem_inserted.2 ⟨c, inserts⟩)

/-- A new insertion makes a tag that was not there. -/
theorem Distinct.new {before : Client Tag} {pos : Nat}
    (distinct : Distinct (τ ++ [.inserted c before pos ch t])) : ¬ Inserts τ u t x := by
  intro inserts
  have nodup := distinct.nodup
  rw [inserted, List.filterMap_append, List.map_append] at nodup
  refine (List.nodup_append.1 nodup).2.2 t ?_ t (by simp [Event.insertion]) rfl
  exact List.mem_map_of_mem (mem_inserted.2 ⟨u, inserts⟩ : (t, x) ∈ inserted τ)

end Trace

end ColabEdit.Session
