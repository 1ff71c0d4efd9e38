/-
# ColabEdit.Browser.Burst -- what a client types between two deliveries

A client that shares an acknowledged list `L` with others types while nothing
arrives.  `Burst L k n` is the invariant: every tag of its own is unacknowledged
and lies strictly inside the `k`-th of `n` parts of the gap of `L` it was typed
into.  `Burst.insert` is the step: whatever the flags of the two neighbours, the
bounds `insert` computes stay inside that part, and the new tag goes strictly
between the neighbours.

`bursts_merge` takes two clients with different positions: no tag is made twice,
and once each has attached the other's insertions both show one text, with the
characters of the lower position first in every gap of `L`.
-/
import ColabEdit.Browser.Client
import ColabEdit.Browser.Gap

namespace ColabEdit.Browser.Pps

open BigTag
open ColabEdit.Theory
open ColabEdit.Theory.SortedList

set_option autoImplicit false

/-! ## What a list shows -/

section Shows

variable {Tag : Type} [LinearOrder Tag]

/-- The list shows the value `v` at `t`. -/
def Shows (s : Pps Tag) (t : Tag) (v : Option CharCode) : Prop :=
  t ∈ s.ppsTags ∧ s.pps t = v ∧ v ≠ some 0

/-- The text strictly between two tags. -/
def gapText (s : Pps Tag) (l r : Tag) : Text := s.textOf (s.ppsTags.filter fun t => l < t ∧ t < r)

omit [LinearOrder Tag] in
theorem mem_visible {s : Pps Tag} {t : Tag} : t ∈ s.visible ↔ Shows s t (s.pps t) := by
  simp only [visible, List.mem_filter, shown_eq_true, Shows, true_and]

theorem strict_visible {s : Pps Tag} (strict : s.ppsTags.Pairwise (· < ·)) :
    s.visible.Pairwise (· < ·) := strict.filter _

/-- Lists that show the same have the same text. -/
theorem textOf_ext {s s' : Pps Tag} (strict : s.ppsTags.Pairwise (· < ·))
    (strict' : s'.ppsTags.Pairwise (· < ·)) (same : ∀ t v, Shows s t v ↔ Shows s' t v) :
    s.textOf s.ppsTags = s'.textOf s'.ppsTags := by
  have visible : s.visible = s'.visible :=
    eq_of_mem_iff (strict_visible strict) (strict_visible strict') fun t => by
      constructor
      · intro member
        have shows := (same t _).1 (mem_visible.1 member)
        exact mem_visible.2 (shows.2.1.symm ▸ shows)
      · intro member
        have shows := (same t _).2 (mem_visible.1 member)
        exact mem_visible.2 (shows.2.1.symm ▸ shows)
  change s.visible.map s.char = s'.visible.map s'.char
  rw [← visible]
  refine List.map_congr_left fun t member => ?_
  exact char_of_pps_eq ((same t _).1 (mem_visible.1 member)).2.1.symm

/-- Where a list shows in a gap what two others show there, the one below the
other, its text in the gap is theirs one after the other. -/
theorem gapText_append {s s₁ s₂ : Pps Tag} {l r : Tag} (strict : s.ppsTags.Pairwise (· < ·))
    (strict₁ : s₁.ppsTags.Pairwise (· < ·)) (strict₂ : s₂.ppsTags.Pairwise (· < ·))
    (union : ∀ t v, l < t → t < r → (Shows s t v ↔ Shows s₁ t v ∨ Shows s₂ t v))
    (below : ∀ t ∈ s₁.ppsTags, ∀ u ∈ s₂.ppsTags, l < t ∧ t < r → l < u ∧ u < r → t < u) :
    s.gapText l r = s₁.gapText l r ++ s₂.gapText l r := by
  have inGap : ∀ {s : Pps Tag} {t : Tag}, t ∈ s.visible.filter (fun t => l < t ∧ t < r) ↔
      Shows s t (s.pps t) ∧ l < t ∧ t < r := by
    intro s t
    rw [List.mem_filter, mem_visible, decide_eq_true_eq]
  have merged : (s.visible.filter fun t => l < t ∧ t < r) =
      (s₁.visible.filter fun t => l < t ∧ t < r) ++ (s₂.visible.filter fun t => l < t ∧ t < r) := by
    refine eq_of_mem_iff ((strict_visible strict).filter _) ?_ fun t => ?_
    · refine List.pairwise_append.2 ⟨(strict_visible strict₁).filter _,
        (strict_visible strict₂).filter _, fun t ht u hu => ?_⟩
      obtain ⟨⟨t_mem, -⟩, t_gap⟩ := inGap.1 ht
      obtain ⟨⟨u_mem, -⟩, u_gap⟩ := inGap.1 hu
      exact below t t_mem u u_mem t_gap u_gap
    · rw [List.mem_append, inGap, inGap, inGap]
      constructor
      · rintro ⟨shows, gap⟩
        rcases (union t _ gap.1 gap.2).1 shows with shows | shows
        · exact Or.inl ⟨shows.2.1.symm ▸ shows, gap⟩
        · exact Or.inr ⟨shows.2.1.symm ▸ shows, gap⟩
      · rintro (⟨shows, gap⟩ | ⟨shows, gap⟩)
        · have := (union t _ gap.1 gap.2).2 (Or.inl shows)
          exact ⟨this.2.1.symm ▸ this, gap⟩
        · have := (union t _ gap.1 gap.2).2 (Or.inr shows)
          exact ⟨this.2.1.symm ▸ this, gap⟩
  unfold gapText
  rw [textOf_filter, textOf_filter, textOf_filter, merged, List.map_append]
  congr 1
  · refine List.map_congr_left fun t member => ?_
    obtain ⟨shows, gap⟩ := inGap.1 member
    exact char_of_pps_eq ((union t _ gap.1 gap.2).2 (Or.inl shows)).2.1
  · refine List.map_congr_left fun t member => ?_
    obtain ⟨shows, gap⟩ := inGap.1 member
    exact char_of_pps_eq ((union t _ gap.1 gap.2).2 (Or.inr shows)).2.1

end Shows

/-! ## One insertion -/

structure Burst (L : List ℚ) (k n : Int) (s : Pps ℚ) : Prop where
  framed : Framed s
  flagged : Flagged s
  strict : s.ppsTags.Pairwise (· < ·)
  base : ∀ t ∈ L, t ∈ s.ppsTags ∧ s.ppsAck t = some true
  own : ∀ t ∈ s.ppsTags, t ∉ L →
    s.ppsAck t = some false ∧ ∃ l r, Neighbours L l r ∧ InPart l r n k t

/-- A document as it is loaded: a strictly sorted list, every tag acknowledged. -/
structure Loaded (L : List ℚ) (s : Pps ℚ) : Prop where
  tags : s.ppsTags = L
  framed : Framed s
  strict : L.Pairwise (· < ·)
  acked : ∀ t ∈ L, s.ppsAck t = some true

theorem Loaded.burst {L : List ℚ} {s : Pps ℚ} (loaded : Loaded L s) (k n : Int) : Burst L k n s where
  framed := loaded.framed
  flagged :=
    { flag := fun t member => ⟨true, loaded.acked t (loaded.tags ▸ member)⟩
      zero := loaded.acked _ (loaded.tags ▸ loaded.framed.zero_mem)
      one := loaded.acked _ (loaded.tags ▸ loaded.framed.one_mem) }
  strict := by
    rw [loaded.tags]
    exact loaded.strict
  base := fun t member => ⟨by rwa [loaded.tags], loaded.acked t member⟩
  own := fun t member absent => absurd (loaded.tags ▸ member) absent

section Step

variable {L : List ℚ} {k n : Int} {s : Pps ℚ} {pos : Nat} {A B : List ℚ} {l r a b : ℚ}

namespace Burst

theorem acked_iff (burst : Burst L k n s) {t : ℚ} (member : t ∈ s.ppsTags) :
    s.ppsAck t = some true ↔ t ∈ L := by
  constructor
  · intro acked
    by_contra absent
    simp [(burst.own t member absent).1] at acked
  · exact fun inL => (burst.base t inL).2

/-- The acknowledged tags around a position are neighbours in `L`. -/
theorem gap (burst : Burst L k n s) (strict : L.Pairwise (· < ·))
    (place : Place s pos A B l r a b) : Neighbours L a b := by
  have sorted := burst.strict
  rw [place.shape] at sorted
  have less : l < r :=
    (List.pairwise_cons.1 (List.pairwise_append.1 sorted).2.1).1 r (by simp)
  refine neighbours_of_outside strict ((burst.acked_iff place.a_mem).1 place.acked_a)
    ((burst.acked_iff place.b_mem).1 place.acked_b)
    ((place.le_a burst.framed).trans_lt (less.trans_le (place.le_b burst.framed))) fun t inL => ?_
  obtain ⟨member, acked⟩ := burst.base t inL
  exact place.acked_outside burst.framed member acked

/-- An unacknowledged tag strictly inside a gap lies in the client's part of it. -/
theorem inPart (burst : Burst L k n s) (strict : L.Pairwise (· < ·)) (nonneg : 0 ≤ k) (less : k < n)
    (next : Neighbours L a b) {t : ℚ} (member : t ∈ s.ppsTags) (inside : a < t ∧ t < b) :
    InPart a b n k t := by
  have absent : t ∉ L := fun inL => by
    rcases next.outside strict inL with le | ge
    · exact absurd inside.1 (not_lt.2 le)
    · exact absurd inside.2 (not_lt.2 ge)
  obtain ⟨-, l', r', next', part⟩ := burst.own t member absent
  obtain ⟨rfl, rfl⟩ := next.unique next' strict inside
    (part.between (next'.lt strict).le nonneg less)
  exact part

/-- The bounds of `insert` stay inside the client's part of the gap and between
the neighbours. -/
theorem middle (burst : Burst L k n s) (strict : L.Pairwise (· < ·)) (nonneg : 0 ≤ k) (less : k < n)
    (place : Place s pos A B l r a b) :
    InPart a b n k (s.middle k n l r a b) ∧ l < s.middle k n l r a b ∧ s.middle k n l r a b < r := by
  have positive : 0 < n := by omega
  have next := burst.gap strict place
  have gap : a < b := next.lt strict
  have a_l := place.le_a burst.framed
  have r_b := place.le_b burst.framed
  have l_r : l < r := by
    have sorted := burst.strict
    rw [place.shape] at sorted
    exact (List.pairwise_cons.1 (List.pairwise_append.1 sorted).2.1).1 r (by simp)
  have part : cut a b n k < cut a b n (k + 1) := cut_lt_cut gap positive (by omega)
  have low : cut a b n k ≤ s.lower k n a b l ∧ l ≤ s.lower k n a b l ∧
      s.lower k n a b l < cut a b n (k + 1) ∧ (s.lower k n a b l < r ∨ s.ppsAck r = some true) := by
    unfold lower
    split
    · rename_i acked
      obtain rfl := place.a_eq acked
      refine ⟨le_rfl, le_cut gap.le positive nonneg, part, ?_⟩
      by_cases acked_r : s.ppsAck r = some true
      · exact Or.inr acked_r
      · have ne : r ≠ b := fun same => acked_r (same ▸ place.acked_b)
        exact Or.inl (burst.inPart strict nonneg less next place.right_mem
          ⟨l_r, lt_of_le_of_ne r_b ne⟩).1
    · rename_i unacked
      have ne : a ≠ l := fun same => unacked (same ▸ place.acked_a)
      have own := burst.inPart strict nonneg less next place.left_mem
        ⟨lt_of_le_of_ne a_l ne, l_r.trans_le r_b⟩
      exact ⟨own.1.le, le_rfl, own.2, Or.inl l_r⟩
  have high : s.upper k n a b r ≤ cut a b n (k + 1) ∧ s.upper k n a b r ≤ r ∧
      s.lower k n a b l < s.upper k n a b r := by
    obtain ⟨-, -, low_part, low_r⟩ := low
    unfold upper
    split
    · rename_i acked
      obtain rfl := place.b_eq acked
      exact ⟨le_rfl, cut_le gap.le positive (by omega), low_part⟩
    · rename_i unacked
      have ne : r ≠ b := fun same => unacked (same ▸ place.acked_b)
      have own := burst.inPart strict nonneg less next place.right_mem
        ⟨a_l.trans_lt l_r, lt_of_le_of_ne r_b ne⟩
      exact ⟨own.2.le, le_rfl, low_r.resolve_right unacked⟩
  refine ⟨InPart.middle low.1 high.2.2 high.1, ?_, ?_⟩
  · exact low.2.1.trans_lt (left_lt_add_div_two.2 high.2.2)
  · exact (add_div_two_lt_right.2 high.2.2).trans_le high.2.1

/-- **One insertion of a burst.**  It succeeds, its tag is new, lies in the
client's part of a gap of `L`, and goes between the list neighbours. -/
theorem insert (burst : Burst L k n s) (strict : L.Pairwise (· < ·)) (nonneg : 0 ≤ k) (less : k < n)
    (valid : pos ≤ s.visible.length) (ch : CharCode) :
    ∃ A l r B t, s.insert k n pos ch = some (s.push t ch false, some t) ∧
      s.ppsTags = A ++ l :: r :: B ∧ A.length = pos ∧
      (s.push t ch false).ppsTags = A ++ l :: t :: r :: B ∧ t ∉ s.ppsTags ∧
      Burst L k n (s.push t ch false) := by
  obtain ⟨A, B, l, r, a, b, place⟩ := exists_place burst.framed burst.flagged valid
  obtain ⟨part, left, right⟩ := burst.middle strict nonneg less place
  have between := middle_between burst.framed place nonneg less
  refine ⟨A, l, r, B, s.middle k n l r a b, insert_at burst.framed burst.flagged valid place k n ch,
    place.shape, place.index, ?_⟩
  generalize s.middle k n l r a b = t at part left right between
  have absent : t ∉ s.ppsTags := fun member => by
    have sorted := burst.framed.sorted
    rw [place.shape] at member sorted
    rcases not_between sorted member with le | ge
    · exact absurd left (not_lt.2 le)
    · exact absurd right (not_lt.2 ge)
  have tags := push_between burst.framed.sorted place.shape left.le right.le
  have ne : ∀ u ∈ s.ppsTags, u ≠ t := fun u member same => absent (same ▸ member)
  refine ⟨tags, absent, burst.framed.push between ch false, ?_, ?_, ?_, ?_⟩
  · refine ⟨fun u member => ?_, ?_, ?_⟩
    · rcases mem_push.1 member with member | rfl
      · rw [push_ppsAck, mark_ppsAck_ne s (ne u member)]
        exact burst.flagged.flag u member
      · exact ⟨false, by simp⟩
    · rw [push_ppsAck, mark_ppsAck_ne s (ne _ burst.framed.zero_mem)]
      exact burst.flagged.zero
    · rw [push_ppsAck, mark_ppsAck_ne s (ne _ burst.framed.one_mem)]
      exact burst.flagged.one
  · refine strict_of_nodup (sorted_push s t ch false) ?_
    refine (List.perm_insertionSort _ _).nodup_iff.2 (List.nodup_append.2 ⟨?_, by simp, ?_⟩)
    · exact burst.strict.imp ne_of_lt
    · intro u member v single
      rw [List.mem_singleton.1 single]
      exact ne u member
  · intro u inL
    obtain ⟨member, acked⟩ := burst.base u inL
    refine ⟨mem_push.2 (Or.inl member), ?_⟩
    rw [push_ppsAck, mark_ppsAck_ne s (ne u member)]
    exact acked
  · intro u member absent_u
    rcases mem_push.1 member with member | rfl
    · rw [push_ppsAck, mark_ppsAck_ne s (ne u member)]
      exact burst.own u member absent_u
    · exact ⟨by simp, a, b, burst.gap strict place, part⟩

/-- Hiding a tag of the burst keeps it unacknowledged. -/
theorem hide (burst : Burst L k n s) {t : ℚ} (own : t ∉ L) : Burst L k n (s.hide t) := by
  have kept : ∀ u, u ∈ L → (s.hide t).ppsAck u = s.ppsAck u := fun u inL =>
    mark_ppsAck_ne s (ne_of_mem_of_not_mem inL own) 0 false
  have zero := (burst.acked_iff burst.framed.zero_mem).1 burst.flagged.zero
  have one := (burst.acked_iff burst.framed.one_mem).1 burst.flagged.one
  refine ⟨burst.framed.hide t, ⟨fun u member => ?_, ?_, ?_⟩, burst.strict, ?_, ?_⟩
  · by_cases same : u = t
    · exact ⟨false, by simp [hide_eq_mark, same]⟩
    · rw [hide_eq_mark, mark_ppsAck_ne s same]
      exact burst.flagged.flag u member
  · exact (kept _ zero).trans burst.flagged.zero
  · exact (kept _ one).trans burst.flagged.one
  · exact fun u inL => ⟨(burst.base u inL).1, (kept u inL).trans (burst.base u inL).2⟩
  · intro u member absent
    refine ⟨?_, (burst.own u member absent).2⟩
    by_cases same : u = t
    · simp [hide_eq_mark, same]
    · rw [hide_eq_mark, mark_ppsAck_ne s same]
      exact (burst.own u member absent).1

theorem hideAll {tags : List ℚ} (burst : Burst L k n s) (own : ∀ t ∈ tags, t ∉ L) :
    Burst L k n (tags.foldl Pps.hide s) := by
  induction tags generalizing s with
  | nil => exact burst
  | cons t rest ih =>
      exact ih (burst.hide (own t (by simp))) fun u member => own u (by simp [member])

end Burst

end Step

/-! ## A sequence of insertions -/

/-- `PPS.insert` for each position and character in turn: the document, and the
tags made with their characters.  `none` is a call that throws or returns `null`. -/
def insertAll (index numClients : Int) :
    List (Nat × CharCode) → Pps ℚ → Option (Pps ℚ × List (ℚ × CharCode))
  | [], s => some (s, [])
  | (pos, ch) :: rest, s =>
      match s.insert index numClients pos ch with
      | some (s, some tag) =>
          (insertAll index numClients rest s).map fun out => (out.1, (tag, ch) :: out.2)
      | _ => none

/-- The insertions have the characters that were typed. -/
theorem insertAll_codes {index numClients : Int} {typed : List (Nat × CharCode)} {s s' : Pps ℚ}
    {new : List (ℚ × CharCode)} (ran : s.insertAll index numClients typed = some (s', new)) :
    new.map Prod.snd = typed.map Prod.snd := by
  induction typed generalizing s new with
  | nil =>
      cases ran
      rfl
  | cons call rest ih =>
      obtain ⟨pos, ch⟩ := call
      simp only [insertAll] at ran
      split at ran
      · obtain ⟨⟨last, later⟩, others, same⟩ := Option.map_eq_some_iff.1 ran
        cases same
        rw [List.map_cons, List.map_cons, ih others]
      · cases ran

/-- Every call is at a valid position of the document it finds. -/
def validAll (index numClients : Int) : List (Nat × CharCode) → Pps ℚ → Bool
  | [], _ => true
  | (pos, ch) :: rest, s =>
      decide (pos ≤ s.visible.length) &&
        match s.insert index numClients pos ch with
        | some (s, _) => validAll index numClients rest s
        | none => true

/-- What a sequence of insertions leaves: the list has gained exactly the new
tags, none of them twice, each with its character. -/
structure Grown (s s' : Pps ℚ) (new : List (ℚ × CharCode)) : Prop where
  mem : ∀ t, t ∈ s'.ppsTags ↔ t ∈ s.ppsTags ∨ t ∈ new.map Prod.fst
  nodup : (new.map Prod.fst).Nodup
  absent : ∀ t ∈ new.map Prod.fst, t ∉ s.ppsTags
  chars : ∀ e ∈ new, s'.pps e.1 = some e.2
  others : ∀ t, t ∉ new.map Prod.fst → s'.pps t = s.pps t

theorem Grown.shows {s s' : Pps ℚ} {new : List (ℚ × CharCode)} (grown : Grown s s' new) (t : ℚ)
    (v : Option CharCode) :
    Shows s' t v ↔ Shows s t v ∨ (v ≠ some 0 ∧ ∃ e ∈ new, e.1 = t ∧ some e.2 = v) := by
  by_cases isNew : t ∈ new.map Prod.fst
  · have old : ¬ Shows s t v := fun shows => grown.absent t isNew shows.1
    have member : t ∈ s'.ppsTags := (grown.mem t).2 (Or.inr isNew)
    obtain ⟨e, inNew, rfl⟩ := List.mem_map.1 isNew
    constructor
    · rintro ⟨-, value, visible⟩
      exact Or.inr ⟨visible, e, inNew, rfl, (grown.chars e inNew).symm.trans value⟩
    · rintro (shows | ⟨visible, d, inNew', same, value⟩)
      · exact absurd shows old
      · exact ⟨member, by rw [← same, grown.chars d inNew', value], visible⟩
  · have not_new : ¬ ∃ e ∈ new, e.1 = t ∧ some e.2 = v := by
      rintro ⟨e, inNew, rfl, -⟩
      exact isNew (List.mem_map_of_mem inNew)
    simp only [Shows, grown.mem t, isNew, or_false, grown.others t isNew, not_new, and_false]

section Sequence

variable {L : List ℚ} {k n : Int}

theorem Burst.insertAll (strict : L.Pairwise (· < ·)) (nonneg : 0 ≤ k) (less : k < n)
    {typed : List (Nat × CharCode)} {s : Pps ℚ} (burst : Burst L k n s)
    (valid : validAll k n typed s) :
    ∃ s' new, s.insertAll k n typed = some (s', new) ∧ Burst L k n s' ∧ Grown s s' new := by
  induction typed generalizing s with
  | nil => exact ⟨s, [], rfl, burst, by simp, by simp, by simp, by simp, by simp⟩
  | cons call rest ih =>
      obtain ⟨pos, ch⟩ := call
      simp only [validAll, Bool.and_eq_true, decide_eq_true_eq] at valid
      obtain ⟨here, later⟩ := valid
      obtain ⟨A, l, r, B, t, inserted, -, -, -, fresh, burst'⟩ :=
        burst.insert strict nonneg less here ch
      rw [inserted] at later
      obtain ⟨s', new, ran, after, grown⟩ := ih burst' later
      have t_mem : t ∈ (s.push t ch false).ppsTags := mem_push.2 (Or.inr rfl)
      have t_old : t ∉ new.map Prod.fst := fun isNew => grown.absent t isNew t_mem
      refine ⟨s', (t, ch) :: new, ?_, after, ?_, ?_, ?_, ?_, ?_⟩
      · simp only [Pps.insertAll, inserted, ran, Option.map_some]
      · intro u
        rw [grown.mem, mem_push, List.map_cons, List.mem_cons, or_assoc]
      · rw [List.map_cons]
        exact List.nodup_cons.2 ⟨t_old, grown.nodup⟩
      · intro u isNew
        rw [List.map_cons, List.mem_cons] at isNew
        rcases isNew with rfl | isNew
        · exact fresh
        · exact fun member => grown.absent u isNew (mem_push.2 (Or.inl member))
      · intro e inNew
        rcases List.mem_cons.1 inNew with rfl | inNew
        · rw [grown.others t t_old]
          simp
        · exact grown.chars e inNew
      · intro u absent
        rw [List.map_cons, List.mem_cons, not_or] at absent
        rw [grown.others u absent.2, push_pps, mark_pps_ne s absent.1]

end Sequence

/-! ## Attaching the insertions of another client -/

section Attach

variable {Tag Num : Type} [LinearOrder Tag] [BigTag Tag Num]

/-- Attaching fresh tags, in any order, adds exactly what they show. -/
theorem attachAll_fresh (s : Pps Tag) (got : List (Tag × CharCode))
    (nodup : (got.map Prod.fst).Nodup) (fresh : ∀ e ∈ got, e.1 ∉ s.ppsTags ∧ Between e.1)
    (framed : Framed s) (strict : s.ppsTags.Pairwise (· < ·)) :
    Framed (s.attachAll got) ∧ (s.attachAll got).ppsTags.Pairwise (· < ·) ∧
      ∀ t v, Shows (s.attachAll got) t v ↔
        Shows s t v ∨ (v ≠ some 0 ∧ ∃ e ∈ got, e.1 = t ∧ some e.2 = v) := by
  induction got generalizing s with
  | nil => exact ⟨framed, strict, by simp⟩
  | cons e rest ih =>
      rw [List.map_cons, List.nodup_cons] at nodup
      obtain ⟨fresh_e, between⟩ := fresh e (by simp)
      have framed' := framed.attach between e.2
      have member : ∀ t, t ∈ (s.attach e.1 e.2).ppsTags ↔ t ∈ s.ppsTags ∨ (t = e.1 ∧ e.2 ≠ 0) := by
        intro t
        by_cases zero : e.2 = 0
        · simp [zero, attach_zero]
        · rw [attach_of_ne s e.1 zero, mem_push]
          simp [zero]
      have strict' : (s.attach e.1 e.2).ppsTags.Pairwise (· < ·) := by
        by_cases zero : e.2 = 0
        · rw [zero, attach_zero]
          exact strict
        · rw [attach_of_ne s e.1 zero]
          refine strict_of_nodup (sorted_push s e.1 e.2 true) ?_
          refine (List.perm_insertionSort _ _).nodup_iff.2
            (List.nodup_append.2 ⟨strict.imp ne_of_lt, by simp, fun u inS v single => ?_⟩)
          rw [List.mem_singleton.1 single]
          exact fun same => fresh_e (same ▸ inS)
      have first : ∀ t v, Shows (s.attach e.1 e.2) t v ↔
          Shows s t v ∨ (v ≠ some 0 ∧ e.1 = t ∧ some e.2 = v) := by
        intro t v
        have value : (s.attach e.1 e.2).pps = (s.mark e.1 e.2 true).pps := by
          by_cases zero : e.2 = 0
          · rw [zero, attach_zero]
          · rw [attach_of_ne s e.1 zero, push_pps]
        unfold Shows
        rw [member, value]
        by_cases same : t = e.1
        · subst same
          rw [mark_pps_self]
          constructor
          · rintro ⟨-, rfl, visible⟩
            exact Or.inr ⟨visible, rfl, rfl⟩
          · rintro (⟨inS, -⟩ | ⟨visible, -, rfl⟩)
            · exact absurd inS fresh_e
            · exact ⟨Or.inr ⟨rfl, by simpa using visible⟩, rfl, visible⟩
        · rw [mark_pps_ne s same]
          simp [same, Ne.symm same]
      have fresh' : ∀ d ∈ rest, d.1 ∉ (s.attach e.1 e.2).ppsTags ∧ Between d.1 := by
        intro d inRest
        obtain ⟨fresh_d, between_d⟩ := fresh d (by simp [inRest])
        refine ⟨fun inS => ?_, between_d⟩
        rcases (member d.1).1 inS with inS | ⟨same, -⟩
        · exact fresh_d inS
        · exact nodup.1 (same ▸ List.mem_map_of_mem inRest)
      obtain ⟨framed'', strict'', shows⟩ := ih _ nodup.2 fresh' framed' strict'
      refine ⟨framed'', strict'', fun t v => ?_⟩
      rw [attachAll_cons, shows, first]
      constructor
      · rintro ((old | ⟨visible, same, value⟩) | ⟨visible, d, inRest, found⟩)
        · exact Or.inl old
        · exact Or.inr ⟨visible, e, by simp, same, value⟩
        · exact Or.inr ⟨visible, d, by simp [inRest], found⟩
      · rintro (old | ⟨visible, d, member, same, value⟩)
        · exact Or.inl (Or.inl old)
        · rcases List.mem_cons.1 member with rfl | inRest
          · exact Or.inl (Or.inr ⟨visible, same, value⟩)
          · exact Or.inr ⟨visible, d, inRest, same, value⟩

end Attach

/-! ## Two bursts -/

section Merge

variable {L : List ℚ} {k n : Int} {s s' : Pps ℚ} {new : List (ℚ × CharCode)}

/-- Every tag of a burst lies in the client's part of a gap of `L`. -/
theorem Burst.new_inPart (burst : Burst L k n s') (grown : Grown s s' new) (tags : s.ppsTags = L)
    {t : ℚ} (isNew : t ∈ new.map Prod.fst) : ∃ l r, Neighbours L l r ∧ InPart l r n k t :=
  (burst.own t ((grown.mem t).2 (Or.inr isNew)) (tags ▸ grown.absent t isNew)).2

theorem Burst.new_between (burst : Burst L k n s') (grown : Grown s s' new) (framed : Framed s)
    {t : ℚ} (isNew : t ∈ new.map Prod.fst) : Between t :=
  framed.between_of_fresh burst.framed ((grown.mem t).2 (Or.inr isNew)) (grown.absent t isNew)

/-- **Concurrent bursts neither collide nor interleave.**  Two clients share an
acknowledged list `L` and type without hearing of each other.  Each tag lies in
its client's part of a gap of `L`, no tag is made twice, and after each client
attached the other's insertions, in whatever order, both show one text; inside
every gap it is the text of the first client followed by that of the second. -/
theorem bursts_merge {L : List ℚ} {n i j : Int} (nonneg : 0 ≤ i) (ordered : i < j) (less : j < n)
    {s₁ s₂ : Pps ℚ} (loaded₁ : Loaded L s₁) (loaded₂ : Loaded L s₂)
    (same : ∀ t ∈ L, s₁.pps t = s₂.pps t) {typed₁ typed₂ : List (Nat × CharCode)}
    (valid₁ : validAll i n typed₁ s₁) (valid₂ : validAll j n typed₂ s₂) :
    ∃ s₁' new₁ s₂' new₂,
      s₁.insertAll i n typed₁ = some (s₁', new₁) ∧ s₂.insertAll j n typed₂ = some (s₂', new₂) ∧
      new₁.map Prod.snd = typed₁.map Prod.snd ∧ new₂.map Prod.snd = typed₂.map Prod.snd ∧
      (∀ t ∈ new₁.map Prod.fst, ∃ l r, Neighbours L l r ∧ InPart l r n i t) ∧
      (∀ t ∈ new₂.map Prod.fst, ∃ l r, Neighbours L l r ∧ InPart l r n j t) ∧
      ((new₁ ++ new₂).map Prod.fst).Nodup ∧
      ∀ got₁ got₂, got₁.Perm new₂ → got₂.Perm new₁ →
        ∃ text, (s₁'.attachAll got₁).text = some text ∧ (s₂'.attachAll got₂).text = some text ∧
          ∀ l r, Neighbours L l r →
            (s₁'.attachAll got₁).gapText l r = s₁'.gapText l r ++ s₂'.gapText l r ∧
            (s₂'.attachAll got₂).gapText l r = s₁'.gapText l r ++ s₂'.gapText l r := by
  have strict := loaded₁.strict
  obtain ⟨s₁', new₁, ran₁, burst₁, grown₁⟩ :=
    (loaded₁.burst i n).insertAll strict nonneg (ordered.trans less) valid₁
  obtain ⟨s₂', new₂, ran₂, burst₂, grown₂⟩ :=
    (loaded₂.burst j n).insertAll strict (nonneg.trans ordered.le) less valid₂
  have part₁ := fun t isNew => burst₁.new_inPart grown₁ loaded₁.tags (t := t) isNew
  have part₂ := fun t isNew => burst₂.new_inPart grown₂ loaded₂.tags (t := t) isNew
  have disjoint : ∀ t ∈ new₁.map Prod.fst, t ∉ new₂.map Prod.fst := by
    intro t isNew₁ isNew₂
    obtain ⟨l, r, next, inPart₁⟩ := part₁ t isNew₁
    obtain ⟨l', r', next', inPart₂⟩ := part₂ t isNew₂
    obtain ⟨rfl, rfl⟩ := next.unique next' strict
      (inPart₁.between (next.lt strict).le nonneg (ordered.trans less))
      (inPart₂.between (next'.lt strict).le (nonneg.trans ordered.le) less)
    exact inPart₁.ne (next.lt strict).le (by omega) ordered.ne inPart₂ rfl
  refine ⟨s₁', new₁, s₂', new₂, ran₁, ran₂, insertAll_codes ran₁, insertAll_codes ran₂, part₁, part₂, ?_,
    fun got₁ got₂ perm₁ perm₂ => ?_⟩
  · rw [List.map_append]
    exact List.nodup_append.2 ⟨grown₁.nodup, grown₂.nodup,
      fun t isNew₁ u isNew₂ eq => disjoint t isNew₁ (eq ▸ isNew₂)⟩
  -- what each client shows after attaching the other's insertions
  have base : ∀ t v, Shows s₁ t v ↔ Shows s₂ t v := fun t v => by
    unfold Shows
    rw [loaded₁.tags, loaded₂.tags]
    exact and_congr_right fun inL => by rw [same t inL]
  obtain ⟨framed₁, strict₁, shows₁⟩ := attachAll_fresh s₁' got₁
    ((perm₁.map Prod.fst).nodup_iff.2 grown₂.nodup) (fun e inGot => by
      have isNew : e.1 ∈ new₂.map Prod.fst := List.mem_map_of_mem (perm₁.mem_iff.1 inGot)
      refine ⟨fun member => ?_, burst₂.new_between grown₂ loaded₂.framed isNew⟩
      rcases (grown₁.mem e.1).1 member with inL | isNew₁
      · exact grown₂.absent e.1 isNew (loaded₂.tags ▸ loaded₁.tags ▸ inL)
      · exact disjoint e.1 isNew₁ isNew) burst₁.framed burst₁.strict
  obtain ⟨framed₂, strict₂, shows₂⟩ := attachAll_fresh s₂' got₂
    ((perm₂.map Prod.fst).nodup_iff.2 grown₁.nodup) (fun e inGot => by
      have isNew : e.1 ∈ new₁.map Prod.fst := List.mem_map_of_mem (perm₂.mem_iff.1 inGot)
      refine ⟨fun member => ?_, burst₁.new_between grown₁ loaded₁.framed isNew⟩
      rcases (grown₂.mem e.1).1 member with inL | isNew₂
      · exact grown₁.absent e.1 isNew (loaded₁.tags ▸ loaded₂.tags ▸ inL)
      · exact disjoint e.1 isNew isNew₂) burst₂.framed burst₂.strict
  have union₁ : ∀ t v, Shows (s₁'.attachAll got₁) t v ↔ Shows s₁' t v ∨ Shows s₂' t v := by
    intro t v
    rw [shows₁, grown₂.shows, ← base, grown₁.shows]
    simp only [perm₁.mem_iff]
    rw [or_or_or_comm, or_self, or_assoc]
  have union₂ : ∀ t v, Shows (s₂'.attachAll got₂) t v ↔ Shows s₁' t v ∨ Shows s₂' t v := by
    intro t v
    rw [shows₂, grown₁.shows, base, grown₂.shows]
    simp only [perm₂.mem_iff]
    rw [or_comm (b := Shows s₂ t v ∨ _), or_or_or_comm, or_self, or_assoc]
  have below : ∀ l r, Neighbours L l r → ∀ t ∈ s₁'.ppsTags, ∀ u ∈ s₂'.ppsTags,
      l < t ∧ t < r → l < u ∧ u < r → t < u := fun l r next t t_mem u u_mem t_gap u_gap =>
    (burst₁.inPart strict nonneg (ordered.trans less) next t_mem t_gap).lt (next.lt strict).le
      (by omega) ordered
      (burst₂.inPart strict (nonneg.trans ordered.le) less next u_mem u_gap)
  refine ⟨_, framed₁.text_eq, ?_, fun l r next => ⟨?_, ?_⟩⟩
  · rw [framed₂.text_eq]
    exact congrArg some (textOf_ext strict₂ strict₁ fun t v => (union₂ t v).trans (union₁ t v).symm)
  · exact gapText_append strict₁ burst₁.strict burst₂.strict (fun t v _ _ => union₁ t v)
      (below l r next)
  · exact gapText_append strict₂ burst₁.strict burst₂.strict (fun t v _ _ => union₂ t v)
      (below l r next)

theorem loaded_fresh : Loaded [0, 1] (fresh : Pps ℚ) where
  tags := rfl
  framed := framed_fresh
  strict := by simp
  acked := by
    intro t inL
    simp only [List.mem_cons, List.not_mem_nil, or_false] at inL
    exact if_pos inL

/-- Two clients on the fresh page: the one types `ab`, the other `c`; both end with `abc`. -/
theorem bursts_merge_fresh :
    ∃ s₁' new₁ s₂' new₂, (fresh : Pps ℚ).insertAll 0 2 [(0, 97), (1, 98)] = some (s₁', new₁) ∧
      (fresh : Pps ℚ).insertAll 1 2 [(0, 99)] = some (s₂', new₂) ∧
      new₁.map Prod.snd = [97, 98] ∧ new₂.map Prod.snd = [99] ∧
      ((new₁ ++ new₂).map Prod.fst).Nodup ∧
      (s₁'.attachAll new₂).text = some [97, 98, 99] ∧ (s₂'.attachAll new₁).text = some [97, 98, 99] := by
  obtain ⟨s₁', new₁, s₂', new₂, ran₁, ran₂, codes₁, codes₂, -, -, nodup, merged⟩ :=
    bursts_merge (by decide : (0 : Int) ≤ 0) (by decide : (0 : Int) < 1) (by decide : (1 : Int) < 2)
      loaded_fresh loaded_fresh (fun _ _ => rfl)
      (by decide +kernel : validAll 0 2 [(0, 97), (1, 98)] fresh)
      (by decide +kernel : validAll 1 2 [(0, 99)] fresh)
  obtain ⟨text, text₁, text₂, -⟩ := merged new₂ new₁ (List.Perm.refl _) (List.Perm.refl _)
  have shown : (((fresh : Pps ℚ).insertAll 0 2 [(0, 97), (1, 98)]).bind fun one =>
      ((fresh : Pps ℚ).insertAll 1 2 [(0, 99)]).bind fun other => (one.1.attachAll other.2).text) =
        some [97, 98, 99] := by decide +kernel
  rw [ran₁, ran₂] at shown
  obtain rfl := Option.some.inj (text₁.symm.trans shown)
  exact ⟨s₁', new₁, s₂', new₂, ran₁, ran₂, codes₁, codes₂, nodup, text₁, text₂⟩

end Merge

end ColabEdit.Browser.Pps
