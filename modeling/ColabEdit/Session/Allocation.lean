/-
# ColabEdit.Session.Allocation -- the tags of a session without deletions

Runs in exact arithmetic whose pages insert, push and receive, and delete
nothing.

* `lands_iff`: whether a character lands where it is typed is decided by the room
  at its position, in every page of every run;
* `tags_unique`: if every insertion is `Exclusive`, no tag is ever made twice.  An
  insertion takes its tag from the page's own part of the gap it divides; it is
  exclusive when its unacknowledged neighbours lie in that part, and when the part
  does not overlap the part another page took a tag from that has not arrived,
  unless both divide the same gap for the same user count.  There the positions of
  the pages keep the parts apart.

Poles: `typed_over` is a run with two pages and a fixed count where a typed
character lands on another, `tag_made_twice` one where a login changes the count.
-/
import ColabEdit.Browser.Intention
import ColabEdit.Session.Documents
import ColabEdit.Session.Trace

namespace ColabEdit.Session

open ColabEdit.Browser ColabEdit.Browser.BigTag ColabEdit.Server ColabEdit.Theory

set_option autoImplicit false
set_option linter.unusedSectionVars false

/-- The event is no deletion. -/
def Event.Keeps {C Tag : Type} : Event C Tag → Prop
  | .deleted _ _ => False
  | _ => True

/-- The event is no deletion and no insertion of the code of a deletion. -/
def Event.Types {C Tag : Type} : Event C Tag → Prop
  | .deleted _ _ => False
  | .inserted _ _ _ ch _ => ch ≠ 0
  | _ => True

/-- The event is no insertion of a page with another user count. -/
def Event.Counts {C Tag : Type} (count : Int) : Event C Tag → Prop
  | .inserted _ before _ _ _ => before.userCount = count
  | _ => True

instance {C Tag : Type} : DecidablePred (@Event.Keeps C Tag)
  | .deleted _ _ => inferInstanceAs (Decidable False)
  | .inserted .. | .stored .. | .applied .. => inferInstanceAs (Decidable True)

instance {C Tag : Type} : DecidablePred (@Event.Types C Tag)
  | .deleted _ _ => inferInstanceAs (Decidable False)
  | .inserted _ _ _ ch _ => inferInstanceAs (Decidable (ch ≠ 0))
  | .stored .. | .applied .. => inferInstanceAs (Decidable True)

instance {C Tag : Type} (count : Int) : DecidablePred (@Event.Counts C Tag count)
  | .inserted _ before _ _ _ => inferInstanceAs (Decidable (before.userCount = count))
  | .deleted .. | .stored .. | .applied .. => inferInstanceAs (Decidable True)

section Lands

variable {C Name : Type} [DecidableEq C] [DecidableEq Name] {userName : C → Name}
  {lower : Name → Name} {τ : List (Event C ℚ)} {S : System C Name ℚ}

/-! ## Where a character lands -/

theorem upholds_plain : Upholds (C := C) Event.Types (fun t ch => ch ≠ 0 ∧ Pps.Between t)
    (fun s : Pps ℚ => s.Plain) where
  start := Pps.plain_fresh
  insert := by
    intro c client client' pos ch t ne plain low high typed
    obtain ⟨doc, inserted, rfl⟩ := Client.insertText_spec typed
    have between := Pps.insert_between plain.framed low high inserted
    refine ⟨?_, ne, between⟩
    change Pps.Plain doc
    rw [Pps.insert_push plain.framed.sorted inserted]
    exact plain.push between ne false
  hide := fun c s t kept => kept.elim
  attach := fun s t ch plain entry => plain.attach entry.2 entry.1

/-- **When a character lands where it is typed**, in any page of any run. -/
theorem lands_iff (run : System.Run userName lower τ S) (types : ∀ e ∈ τ, e.Types) {c : C}
    {page : Page ℚ} (opened : S.pages c = some page) {T : Text} (text : page.client.doc.text = some T)
    {pos : Nat} (valid : pos ≤ T.length) (ch : CharCode) :
    page.client.Intends T pos ch ↔
      ch ≠ 0 ∧ page.client.doc.Roomy page.client.userPosition page.client.userCount pos := by
  have roster := (sound_of_run run).roster
  obtain ⟨position, -, is⟩ := roster.user c page opened
  exact Client.intends_iff ((upholds_plain.run run types).docs c page opened) (by omega)
    (roster.counted c page opened) text valid ch

end Lands

/-- Two pages with the count 2: the first types `a` and `b` in its part, the other
`c` in its own. -/
def typeOver : List (Action Bool ℚ) :=
  [.login false, .login true, .beat false, .handleBeat false, .endBeat false [], .type false 0 97,
    .type false 1 98, .type true 0 99, .send true, .handlePush true, .endPush true, .beat false,
    .handleBeat false, .endBeat false [(1, [(3 / 4, 99)])]]

/-- The page shows `abc`; `d` typed behind `b` lands on `b`. -/
theorem typed_over : ∃ (τ : List (Event Bool ℚ)) (S : System Bool Bool ℚ) (page : Page ℚ),
    System.Run id id τ S ∧ (∀ e ∈ τ, e.Types ∧ e.Counts 2) ∧ S.pages false = some page ∧
      page.client.doc.text = some [97, 98, 99] ∧ ¬ page.client.Intends [97, 98, 99] 2 100 := by
  obtain ⟨τ, S, run, events, shows⟩ : ∃ (τ : List (Event Bool ℚ)) (S : System Bool Bool ℚ),
      System.Run id id τ S ∧ (∀ e ∈ τ, e.Types ∧ e.Counts 2) ∧
        ((S.pages false).any fun page => page.client.doc.text = some [97, 98, 99] ∧
          (page.client.insertText 2 100).map (fun r => r.1.doc.text) =
            some (some [97, 100, 100, 99])) = true :=
    Machine.Run.of_replay (show ((System.machine id id).exec typeOver ([], System.init)).any _ = true by
      decide +kernel)
  obtain ⟨page, opened, shows⟩ := (Option.any_eq_true _ _).1 shows
  obtain ⟨text, doubled⟩ := of_decide_eq_true shows
  refine ⟨τ, S, page, run, events, opened, text, ?_⟩
  rintro ⟨c', t, l, r, typed, -, -, -, -, lands⟩
  rw [typed, Option.map_some, lands] at doubled
  exact absurd doubled (by decide)

/-- In the same run `d` typed between `a` and `b` lands there. -/
theorem lands_between : ∃ (τ : List (Event Bool ℚ)) (S : System Bool Bool ℚ) (page : Page ℚ),
    System.Run id id τ S ∧ S.pages false = some page ∧ page.client.Intends [97, 98, 99] 1 100 := by
  obtain ⟨τ, S, run, types, shows⟩ : ∃ (τ : List (Event Bool ℚ)) (S : System Bool Bool ℚ),
      System.Run id id τ S ∧ (∀ e ∈ τ, e.Types) ∧
        ((S.pages false).any fun page => page.client.doc.text = some [97, 98, 99] ∧
          page.client.doc.Roomy page.client.userPosition page.client.userCount 1) = true :=
    Machine.Run.of_replay (show ((System.machine id id).exec typeOver ([], System.init)).any _ = true by
      decide +kernel)
  obtain ⟨page, opened, shows⟩ := (Option.any_eq_true _ _).1 shows
  obtain ⟨text, roomy⟩ := of_decide_eq_true shows
  exact ⟨τ, S, page, run, opened,
    (lands_iff run types opened text (by decide) 100).2 ⟨by decide, roomy⟩⟩

section Unique

variable {C Name : Type} [DecidableEq C] [DecidableEq Name] {userName : C → Name}
  {lower : Name → Name} {τ evs : List (Event C ℚ)} {S S' : System C Name ℚ}

/-! ## The parts the pages take their tags from -/

/-- The page's own part of a gap. -/
def partStart (c : Client ℚ) (g : Pps.Gap ℚ) : ℚ := cut g.start g.stop c.userCount c.userPosition

def partStop (c : Client ℚ) (g : Pps.Gap ℚ) : ℚ :=
  cut g.start g.stop c.userCount (c.userPosition + 1)

/-- The neighbours leave room, and an unacknowledged one lies in the page's own
part of the gap. -/
def InOwnPart (c : Client ℚ) (g : Pps.Gap ℚ) : Prop :=
  g.left < g.right ∧
    (c.doc.ppsAck g.left = some false → partStart c g ≤ g.left ∧ g.left < partStop c g) ∧
    (c.doc.ppsAck g.right = some false → partStart c g < g.right ∧ g.right ≤ partStop c g)

instance (c : Client ℚ) (g : Pps.Gap ℚ) : Decidable (InOwnPart c g) :=
  inferInstanceAs (Decidable (_ ∧ (_ → _) ∧ (_ → _)))

/-- Both divide the same gap for the same user count, or their parts do not overlap. -/
def Apart (c : Client ℚ) (g : Pps.Gap ℚ) (c' : Client ℚ) (g' : Pps.Gap ℚ) : Prop :=
  (g'.start = g.start ∧ g'.stop = g.stop ∧ c'.userCount = c.userCount) ∨
    partStop c' g' ≤ partStart c g ∨ partStop c g ≤ partStart c' g'

instance (c : Client ℚ) (g : Pps.Gap ℚ) (c' : Client ℚ) (g' : Pps.Gap ℚ) : Decidable (Apart c g c' g') :=
  inferInstanceAs (Decidable ((_ ∧ _ ∧ _) ∨ _ ∨ _))

/-- An earlier insertion does not meddle with one that divides `g`: it is the
page's own, or its tag has arrived, or the two are `Apart`. -/
def Event.Yields (c : C) (before : Client ℚ) (g : Pps.Gap ℚ) : Event C ℚ → Prop
  | .inserted u earlier pos _ t =>
      u ≠ c → t ∉ before.doc.ppsTags → ∀ g' ∈ earlier.doc.gapAt pos, Apart before g earlier g'
  | _ => True

instance (c : C) (before : Client ℚ) (g : Pps.Gap ℚ) : DecidablePred (Event.Yields c before g)
  | .inserted u earlier pos _ t =>
      inferInstanceAs (Decidable (u ≠ c → t ∉ before.doc.ppsTags →
        ∀ g' ∈ earlier.doc.gapAt pos, Apart before g earlier g'))
  | .deleted .. | .stored .. | .applied .. => inferInstanceAs (Decidable True)

/-- The insertion has a part of the gap for itself. -/
def Event.Exclusive (past : List (Event C ℚ)) : Event C ℚ → Prop
  | .inserted c before pos _ _ =>
      ∀ g ∈ before.doc.gapAt pos, InOwnPart before g ∧ ∀ e ∈ past, e.Yields c before g
  | _ => True

instance (past : List (Event C ℚ)) : DecidablePred (Event.Exclusive past)
  | .inserted c before pos _ _ =>
      inferInstanceAs (Decidable (∀ g ∈ before.doc.gapAt pos,
        InOwnPart before g ∧ ∀ e ∈ past, e.Yields c before g))
  | .deleted .. | .stored .. | .applied .. => inferInstanceAs (Decidable True)

/-- **An insertion in its own part** takes a new tag from the part. -/
theorem part_of_insertion {c client : Client ℚ} (framed : c.doc.Framed) (flagged : c.doc.Flagged)
    (nonneg : 0 ≤ c.userPosition) (less : c.userPosition < c.userCount) {pos : Nat} {ch : CharCode}
    {t : ℚ} (typed : c.insertText pos ch = some (client, t)) :
    ∃ g, c.doc.gapAt pos = some g ∧ g.start ≤ g.stop ∧
      (InOwnPart c g →
        InPart g.start g.stop c.userCount c.userPosition t ∧ t ∉ c.doc.ppsTags) := by
  obtain ⟨doc, inserted, -⟩ := Client.insertText_spec typed
  have valid := framed.insert_valid inserted
  obtain ⟨A, B, l, r, a, b, place⟩ := Pps.exists_place framed flagged valid
  rw [Pps.insert_at framed flagged valid place] at inserted
  cases inserted
  refine ⟨⟨l, r, a, b⟩, place.gapAt, place.gap_le framed, ?_⟩
  rintro ⟨lt, own_l, own_r⟩
  dsimp only at lt own_l own_r
  have roomy : c.doc.Roomy c.userPosition c.userCount pos :=
    place.roomy_iff.2 ⟨lt, fun flag _ => (own_l flag).2, fun _ flag => (own_r flag).1⟩
  obtain ⟨left, right⟩ := (Pps.strict_iff_roomy framed flagged place nonneg less).2 roomy
  refine ⟨?_, fun member => ?_⟩
  · have gap : a < b := (place.le_a framed).trans_lt (lt.trans_le (place.le_b framed))
    obtain ⟨fl, flag_l⟩ := flagged.flag l place.left_mem
    obtain ⟨fr, flag_r⟩ := flagged.flag r place.right_mem
    unfold Pps.middle Pps.lower Pps.upper
    cases fl with
    | true =>
        cases fr with
        | true =>
            simp only [flag_l, flag_r, if_true]
            exact InPart.middle le_rfl (cut_lt_cut gap (by omega) (by omega)) le_rfl
        | false =>
            simp only [flag_l, flag_r, if_true, if_false, Option.some.injEq, Bool.false_eq_true]
            exact InPart.middle le_rfl (own_r flag_r).1 (own_r flag_r).2
    | false =>
        cases fr with
        | true =>
            simp only [flag_l, flag_r, if_true, if_false, Option.some.injEq, Bool.false_eq_true]
            exact InPart.middle (own_l flag_l).1 (own_l flag_l).2 le_rfl
        | false =>
            simp only [flag_l, flag_r, if_false, Option.some.injEq, Bool.false_eq_true]
            exact InPart.middle (own_l flag_l).1 lt (own_r flag_r).2
  · have sorted := framed.sorted
    rw [place.shape] at sorted member
    rcases SortedList.not_between sorted member with low | high
    · exact absurd left (not_lt.2 low)
    · exact absurd right (not_lt.2 high)

/-! ## No tag is made twice -/

theorem upholds_flagged : Upholds (C := C) Event.Keeps (fun t _ => Pps.Between t)
    (fun s : Pps ℚ => s.Framed ∧ s.Flagged) where
  start := ⟨Pps.framed_fresh, Pps.flagged_fresh⟩
  insert := by
    intro c client client' pos ch t _ holds low high typed
    obtain ⟨framed, flagged⟩ := holds
    obtain ⟨doc, inserted, rfl⟩ := Client.insertText_spec typed
    have between := Pps.insert_between framed low high inserted
    refine ⟨?_, between⟩
    change doc.Framed ∧ doc.Flagged
    rw [Pps.insert_push framed.sorted inserted]
    exact ⟨framed.push between ch false, flagged.push between ch false⟩
  hide := fun c s t kept => kept.elim
  attach := by
    intro s t ch holds between
    by_cases zero : ch = 0
    · subst zero
      exact ⟨holds.1.mark_zero t true, holds.2.mark between 0 true⟩
    · rw [Pps.attach_of_ne s t zero]
      exact ⟨holds.1.push between ch true, holds.2.push between ch true⟩

/-- The insertions of a run: every page has its own tags, keeps its position, and
took every tag from its part; no two tags are the same. -/
structure Allocated (τ : List (Event C ℚ)) (S : System C Name ℚ) : Prop where
  own : ∀ c page t ch, S.pages c = some page → Inserts τ c t ch → t ∈ page.client.doc.ppsTags
  position : ∀ c page before pos ch t, S.pages c = some page → .inserted c before pos ch t ∈ τ →
    before.userPosition = page.client.userPosition
  part : ∀ c before pos ch t, Event.inserted c before pos ch t ∈ τ →
    ∃ g, before.doc.gapAt pos = some g ∧
      InPart g.start g.stop before.userCount before.userPosition t
  nodup : ((inserted τ).map Prod.fst).Nodup

/-- A step that inserts nothing. -/
theorem Allocated.setPage (allocated : Allocated τ S) {redis : Redis Name (Batch ℚ)} {c : C}
    {page page' : Page ℚ} (opened : S.pages c = some page)
    (grows : ∀ t ∈ page.client.doc.ppsTags, t ∈ page'.client.doc.ppsTags)
    (position : page'.client.userPosition = page.client.userPosition)
    (silent : ∀ e ∈ evs, e.insertion = none) :
    Allocated (τ ++ evs) (({ S with redis := redis } : System C Name ℚ).setPage c page') := by
  have old : ∀ {u before pos ch t}, Event.inserted u before pos ch t ∈ τ ++ evs →
      Event.inserted u before pos ch t ∈ τ := by
    intro u before pos ch t member
    rcases List.mem_append.1 member with old | new
    · exact old
    · cases silent _ new
  have none_new : inserted evs = [] := List.filterMap_eq_nil_iff.2 silent
  refine ⟨?_, ?_, fun u before pos ch t member => allocated.part u before pos ch t (old member), ?_⟩
  · rintro c' other t ch opened' ⟨before, pos, member⟩
    rcases setPage_cases opened' with ⟨rfl, rfl⟩ | ⟨-, opened'⟩
    · exact grows t (allocated.own c' page t ch opened ⟨before, pos, old member⟩)
    · exact allocated.own c' other t ch opened' ⟨before, pos, old member⟩
  · intro c' other before pos ch t opened' member
    rcases setPage_cases opened' with ⟨rfl, rfl⟩ | ⟨-, opened'⟩
    · exact (allocated.position c' page before pos ch t opened (old member)).trans position.symm
    · exact allocated.position c' other before pos ch t opened' (old member)
  · have same : inserted (τ ++ evs) = inserted τ := by
      rw [inserted, List.filterMap_append]
      exact (congrArg _ none_new).trans (List.append_nil _)
    rw [same]
    exact allocated.nodup

/-- A new page has no past. -/
theorem Allocated.login (allocated : Allocated τ S) (log : Log userName lower τ S)
    {redis : Redis Name (Batch ℚ)} {c : C} {page' : Page ℚ} (closed : S.pages c = none) :
    Allocated τ (({ S with redis := redis } : System C Name ℚ).setPage c page') := by
  have silent : ∀ e ∈ τ, e.client ≠ c := fun e member same => by
    obtain ⟨page, opened⟩ := log.authors e member
    rw [same, closed] at opened
    cases opened
  refine ⟨?_, ?_, allocated.part, allocated.nodup⟩
  · rintro c' other t ch opened ⟨before, pos, member⟩
    rcases setPage_cases opened with ⟨rfl, -⟩ | ⟨-, opened⟩
    · exact absurd rfl (silent _ member)
    · exact allocated.own c' other t ch opened ⟨before, pos, member⟩
  · intro c' other before pos ch t opened member
    rcases setPage_cases opened with ⟨rfl, -⟩ | ⟨-, opened⟩
    · exact absurd rfl (silent _ member)
    · exact allocated.position c' other before pos ch t opened member

/-- Different pages have different positions. -/
theorem Roster.position_ne (roster : Roster userName lower S) {c d : C} {page other : Page ℚ}
    (ne : c ≠ d) (opened : S.pages c = some page) (opened' : S.pages d = some other) :
    page.client.userPosition ≠ other.client.userPosition := by
  intro same
  obtain ⟨p, found, is⟩ := roster.user c page opened
  obtain ⟨p', found', is'⟩ := roster.user d other opened'
  have : p = p' := by omega
  subst this
  exact ne (roster.alone c d page other opened opened' (roster.apart _ _ p found found'))

/-- **An exclusive insertion makes a new tag.** -/
theorem Allocated.new (allocated : Allocated τ S) (sound : Sound userName lower τ S) {c : C}
    {page : Page ℚ} {client : Client ℚ} {pos : Nat} {ch : CharCode} {t : ℚ}
    (opened : S.pages c = some page)
    (holds : page.client.doc.Framed ∧ page.client.doc.Flagged)
    (typed : page.client.insertText pos ch = some (client, t))
    (exclusive : Event.Exclusive τ (.inserted c page.client pos ch t)) :
    (∃ g, page.client.doc.gapAt pos = some g ∧
        InPart g.start g.stop page.client.userCount page.client.userPosition t) ∧
      ∀ u x, ¬ Inserts τ u t x := by
  obtain ⟨position, -, is⟩ := sound.roster.user c page opened
  have less := sound.roster.counted c page opened
  obtain ⟨g, gap, ordered, own⟩ :=
    part_of_insertion holds.1 holds.2 (by omega) less typed
  obtain ⟨inOwnPart, yields⟩ := exclusive g gap
  obtain ⟨inPart, new⟩ := own inOwnPart
  refine ⟨⟨g, gap, inPart⟩, ?_⟩
  rintro u x ⟨before, pos', member⟩
  have foreign : u ≠ c := by
    rintro rfl
    exact new (allocated.own u page t x opened ⟨before, pos', member⟩)
  obtain ⟨g', gap', inPart'⟩ := allocated.part u before pos' x t member
  rcases yields _ member foreign new g' gap' with ⟨start, stop, count⟩ | below | above
  · -- the same gap and count: the positions differ
    obtain ⟨other, opened'⟩ := sound.log.authors _ member
    have here := allocated.position u other before pos' x t opened' member
    have differ : before.userPosition ≠ page.client.userPosition := by
      rw [here]
      exact sound.roster.position_ne foreign opened' opened
    rw [start, stop, count] at inPart'
    exact InPart.ne ordered (by omega) differ inPart' inPart rfl
  · exact lt_irrefl t ((inPart'.2.trans_le below).trans inPart.1)
  · exact lt_irrefl t ((inPart.2.trans_le above).trans inPart'.1)

theorem Step.allocated (step : Step userName lower S evs S') (sound : Sound userName lower τ S)
    (upheld : Upheld (fun t _ => Pps.Between t) (fun s : Pps ℚ => s.Framed ∧ s.Flagged) τ S)
    (keeps : ∀ e ∈ evs, e.Keeps) (exclusive : Machine.Each Event.Exclusive τ evs)
    (allocated : Allocated τ S) : Allocated (τ ++ evs) S' := by
  cases step with
  | invalid => simpa using allocated
  | login c closed free =>
      rw [List.append_nil]
      exact allocated.login sound.log closed
  | type c page client pos ch tag opened typed =>
      have holds := upheld.docs c page opened
      obtain ⟨part, new⟩ := allocated.new sound opened holds typed exclusive.1
      obtain ⟨doc, inserted', rfl⟩ := Client.insertText_spec typed
      have pushed := Pps.insert_push holds.1.sorted inserted'
      let client := { page.client with
        doc := doc, pendingChanges := page.client.pendingChanges.insert tag ch }
      have kept : Allocated (τ ++ [])
          (({ S with redis := S.redis } : System C Name ℚ).setPage c { page with client := client }) :=
        allocated.setPage opened (fun t member => (pushed ▸ Pps.mem_push.2 (Or.inl member) : t ∈ doc.ppsTags))
          rfl (by simp)
      rw [List.append_nil] at kept
      refine ⟨?_, ?_, ?_, ?_⟩
      · rintro c' other t x opened' ⟨before, p, member⟩
        rcases List.mem_append.1 member with old | now
        · exact kept.own c' other t x opened' ⟨before, p, old⟩
        · cases List.mem_singleton.1 now
          rcases setPage_cases opened' with ⟨-, rfl⟩ | ⟨ne, -⟩
          · rw [pushed, Pps.mem_push]
            exact Or.inr rfl
          · exact absurd rfl ne
      · intro c' other before p x t opened' member
        rcases List.mem_append.1 member with old | now
        · exact kept.position c' other before p x t opened' old
        · cases List.mem_singleton.1 now
          rcases setPage_cases opened' with ⟨-, rfl⟩ | ⟨ne, -⟩
          · rfl
          · exact absurd rfl ne
      · intro u before p x t member
        rcases List.mem_append.1 member with old | now
        · exact allocated.part u before p x t old
        · cases List.mem_singleton.1 now
          exact part
      · rw [inserted, List.filterMap_append, List.map_append]
        refine List.nodup_append.2 ⟨allocated.nodup, by simp [Event.insertion], ?_⟩
        intro t member t' now same
        obtain ⟨⟨t, x⟩, isInserted, rfl⟩ := List.mem_map.1 member
        obtain ⟨u, inserts⟩ := mem_inserted.1 isInserted
        have here : t' = tag := by simpa [Event.insertion] using now
        exact new u x (here ▸ same ▸ inserts)
  | erase c page positions opened =>
      have none_hidden : page.client.deleteTags positions = [] := by
        cases tags : page.client.deleteTags positions with
        | nil => rfl
        | cons t rest => exact (keeps (.deleted c t) (by simp [tags])).elim
      refine allocated.setPage opened (fun t member => ?_) ?_ (by simp [none_hidden])
      · simpa [Client.deletePositions, none_hidden] using member
      · simp [Client.deletePositions, none_hidden]
  | send c page opened ready => exact allocated.setPage opened (fun _ => id) rfl (by simp)
  | handlePush c page batch ids d opened sent listed =>
      exact allocated.setPage opened (fun _ => id) rfl (by simp [Event.insertion])
  | endPush c page id opened answered =>
      exact allocated.setPage opened (fun _ member => member) rfl (by simp)
  | beat c page opened => exact allocated.setPage opened (fun _ => id) rfl (by simp)
  | handleBeat c page last reply position ids own opened sent user listed parsed count place new read =>
      exact allocated.setPage opened (fun _ => id) rfl (by simp)
  | endBeat c page reply transactions opened answered reordered =>
      obtain ⟨doc, -, -, -, place, -⟩ := Client.applyBatches_spec
        { page.client with userCount := reply.userCount, userPosition := reply.userPosition } transactions
      refine allocated.setPage opened (fun t member => ?_) ?_ fun e member => ?_
      · rw [Client.applyReply, doc]
        exact Pps.mem_attachAll_of_mem member
      · rw [Client.applyReply, place]
        exact (sound.roster.replied c page reply opened answered).1
      · obtain ⟨b, -, rfl⟩ := List.mem_map.1 member
        rfl

/-- **No tag is made twice** in a run without deletions whose insertions are exclusive,
and in no run is one `'0'` or `'1'`. -/
theorem tags_unique (run : System.Run userName lower τ S) :
    ((∀ e ∈ τ, e.Keeps) → Machine.Each Event.Exclusive [] τ → ((inserted τ).map Prod.fst).Nodup) ∧
      ∀ e ∈ inserted τ, e.1 ≠ tag0 ∧ e.1 ≠ tag1 := by
  constructor
  · intro keeps exclusive
    have both := Run.induct
      (P := fun τ => (∀ e ∈ τ, e.Keeps) ∧ Machine.Each Event.Exclusive [] τ)
      (I := fun τ S => Upheld (fun t _ => Pps.Between t) (fun s : Pps ℚ => s.Framed ∧ s.Flagged) τ S ∧
        Allocated τ S) ?_ ?_ ?_ run ⟨keeps, exclusive⟩
    · exact both.2.nodup
    · rintro τ evs ⟨keeps, exclusive⟩
      exact ⟨fun e member => keeps e (List.mem_append_left _ member),
        (Machine.each_append.1 exclusive).1⟩
    · exact ⟨by constructor <;> simp [System.init], by constructor <;> simp [System.init, Inserts, inserted]⟩
    · rintro τ S evs S' sound ⟨keeps, exclusive⟩ ⟨upheld, allocated⟩ step
      exact ⟨upholds_flagged.step sound keeps upheld step,
        step.allocated sound upheld (fun e member => keeps e (List.mem_append_right _ member))
          (by simpa using (Machine.each_append.1 exclusive).2) allocated⟩
  · rintro ⟨t, ch⟩ member
    obtain ⟨c, before, pos, event⟩ := mem_inserted.1 member
    have between : Pps.Between t := inside_of_run run _ event
    exact ⟨between.1.ne', between.2.ne⟩

end Unique

/-- A page types two characters while it is alone; the second page divides the
same gap for two. -/
def loginBetween : List (Action Bool ℚ) :=
  [.login false, .login true, .type false 0 97, .type false 1 98, .type true 0 99]

/-- Both pages make the tag `3/4`. -/
theorem tag_made_twice : ∃ (τ : List (Event Bool ℚ)) (S : System Bool Bool ℚ),
    System.Run id id τ S ∧ (∀ e ∈ τ, e.Keeps) ∧
      inserted τ = [(1 / 2, 97), (3 / 4, 98), (3 / 4, 99)] ∧ ¬ ((inserted τ).map Prod.fst).Nodup :=
  Machine.Run.of_replay (show ((System.machine id id).exec loginBetween ([], System.init)).any _ = true by
    decide +kernel)

/-- The same with the count refreshed before. -/
theorem tags_unique_two : ∃ (τ : List (Event Bool ℚ)) (S : System Bool Bool ℚ),
    System.Run id id τ S ∧ (inserted τ).length = 3 ∧ ((inserted τ).map Prod.fst).Nodup ∧
      ∀ e ∈ inserted τ, e.1 ≠ tag0 ∧ e.1 ≠ tag1 := by
  obtain ⟨τ, S, run, three, keeps, exclusive⟩ : ∃ (τ : List (Event Bool ℚ)) (S : System Bool Bool ℚ),
      System.Run id id τ S ∧ (inserted τ).length = 3 ∧ (∀ e ∈ τ, e.Keeps) ∧
        Machine.Each Event.Exclusive [] τ :=
    Machine.Run.of_replay (show ((System.machine id id).exec
        ([.login false, .login true, .beat false, .handleBeat false, .endBeat false []] ++
          loginBetween.drop 2) ([], System.init)).any _ = true by
      decide +kernel)
  obtain ⟨unique, ends⟩ := tags_unique run
  exact ⟨τ, S, run, three, unique keeps exclusive, ends⟩

end ColabEdit.Session
