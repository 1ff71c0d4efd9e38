/-
# ColabEdit.Session.Convergence -- every page ends with the same document

In a run whose insertions made pairwise different tags, all quiescent pages show
one text: the characters that were inserted and never deleted, in the order of
their tags (`pages_converge`).

Every page records a set of writes (`Wrote`): its own edits and the entries it
applied.  `Upkeep` ties the page to the trace:

* its document records exactly those writes;
* its batches, stored, under way and pending, form a `chain` in which a tag that
  was written once is only deleted later, and which covers its latest writes;
* it deleted only what it had seen inserted.

The one fact about several pages is `Converging.order`: a stored deletion has no
smaller id than the stored insertion of its tag.  Ids only ever grow, and a page
applies them in ascending order, so a deletion never reaches a page before the
insertion it refers to (`first_write`).

`Delivered` asks for less than `Quiescent`: heartbeats may be under way (`pages_show`).
-/
import ColabEdit.Browser.Writes
import ColabEdit.Session.Trace

namespace ColabEdit.Session

open ColabEdit.Browser ColabEdit.Browser.BigTag ColabEdit.Server ColabEdit.Theory

set_option autoImplicit false
set_option linter.unusedSectionVars false

section Defs

variable {C Name Tag Num : Type} [DecidableEq C] [LinearOrder Tag] [BigTag Tag Num]

/-- The insertions between `'0'` and `'1'` that nobody deleted. -/
def survivors (τ : List (Event C Tag)) : List (Tag × CharCode) :=
  (inserted τ).filter fun e => tag0 < e.1 ∧ e.1 < tag1 ∧ e.1 ∉ deletedTags τ

/-- Their characters, in the order of the tags. -/
def document (τ : List (Event C Tag)) : Text :=
  (Pps.byTag (survivors τ)).map fun e => fromCharCode e.2

/-- The batch of a push that is under way. -/
def inFlight : Push Tag → List (Batch Tag)
  | .sent batch => [batch]
  | _ => []

/-- All batches of a page, the oldest first: stored, under way, pending. -/
def chain (τ : List (Event C Tag)) (c : C) (page : Page Tag) : List (Batch Tag) :=
  (storedBy τ c).map Prod.snd ++ inFlight page.push ++ [page.client.pendingChanges]

/-- What the second batch writes to a tag of the first is a deletion. -/
def Later (b b' : Batch Tag) : Prop := ∀ t ch, t ∈ b → b'.lookup t = some ch → ch = 0

/-- A page against the trace. -/
structure Upkeep (τ : List (Event C Tag)) (c : C) (page : Page Tag) : Prop where
  records : Pps.Records (Wrote τ c) page.client.doc
  source : ∀ b ∈ chain τ c page, ∀ t ch, b.lookup t = some ch →
    (ch ≠ 0 ∧ Inserts τ c t ch) ∨ (ch = 0 ∧ Event.deleted c t ∈ τ)
  later : (chain τ c page).Pairwise Later
  insertions : ∀ t ch, Inserts τ c t ch → ∃ b ∈ chain τ c page, t ∈ b
  deletions : ∀ t, Event.deleted c t ∈ τ → ∃ b ∈ chain τ c page, b.lookup t = some 0
  known : ∀ t, Event.deleted c t ∈ τ → t = tag0 ∨ t = tag1 ∨ ∃ ch, ch ≠ 0 ∧ Wrote τ c t ch

structure Converging (τ : List (Event C Tag)) (S : System C Name Tag) : Prop where
  upkeep : ∀ c page, S.pages c = some page → Upkeep τ c page
  order : ∀ d m b u k b' t ch, Event.stored d m b ∈ τ → b.lookup t = some 0 →
    Event.stored u k b' ∈ τ → b'.lookup t = some ch → ch ≠ 0 → k ≤ m

end Defs

section Upkeep

variable {C Name Tag Num : Type} [DecidableEq C] [DecidableEq Name] [LinearOrder Tag] [BigNum Num]
  [BigTag Tag Num] {userName : C → Name} {lower : Name → Name} {τ τ' : List (Event C Tag)}
  {S S' : System C Name Tag} {evs : List (Event C Tag)} {c u : C} {page page' : Page Tag} {t : Tag}
  {ch : CharCode}

theorem stored_mem_chain {id : Nat} {b : Batch Tag} (stored : Event.stored c id b ∈ τ) :
    b ∈ chain τ c page := by
  unfold chain
  refine List.mem_append_left _ (List.mem_append_left _ ?_)
  exact List.mem_map_of_mem (mem_storedBy.2 stored)

/-! ## One page -/

/-- Nothing about the page has changed but its document and the way its batches
are stored. -/
theorem Upkeep.congr (upkeep : Upkeep τ c page)
    (records : Pps.Records (Wrote τ' c) page'.client.doc)
    (same : ∀ e : Event C Tag, e.client = c → (∀ id b, e ≠ .stored c id b) →
      (∀ id entries, e ≠ .applied c id entries) → (e ∈ τ' ↔ e ∈ τ))
    (grows : ∀ t ch, Wrote τ c t ch → Wrote τ' c t ch)
    (batches : chain τ' c page' = chain τ c page) : Upkeep τ' c page' := by
  have inserts : ∀ t ch, Inserts τ' c t ch ↔ Inserts τ c t ch := fun t ch =>
    exists_congr fun before => exists_congr fun pos => same _ rfl (by simp) (by simp)
  have deletes : ∀ t, Event.deleted c t ∈ τ' ↔ Event.deleted c t ∈ τ := fun t =>
    same _ rfl (by simp) (by simp)
  refine ⟨records, ?_, batches ▸ upkeep.later, ?_, ?_, ?_⟩
  · intro b member t ch found
    rw [inserts, deletes]
    exact upkeep.source b (batches ▸ member) t ch found
  · intro t ch insertion
    rw [batches]
    exact upkeep.insertions t ch ((inserts t ch).1 insertion)
  · intro t deletion
    rw [batches]
    exact upkeep.deletions t ((deletes t).1 deletion)
  · intro t deletion
    rcases upkeep.known t ((deletes t).1 deletion) with zero | one | ⟨ch, ne, wrote⟩
    · exact Or.inl zero
    · exact Or.inr (Or.inl one)
    · exact Or.inr (Or.inr ⟨ch, ne, grows t ch wrote⟩)

/-- What a page wrote is read from its own events. -/
theorem wrote_append (silent : ∀ e ∈ evs, e.client = c → ∃ id b, e = .stored c id b) :
    Wrote (τ ++ evs) c t ch ↔ Wrote τ c t ch := by
  have old : ∀ e : Event C Tag, e.client = c → (∀ id b, e ≠ .stored c id b) →
      (e ∈ τ ++ evs ↔ e ∈ τ) := fun e here unstored => by
    rw [List.mem_append, or_iff_left]
    intro member
    obtain ⟨id, b, same⟩ := silent e member here
    exact unstored id b same
  simp only [Wrote, Inserts]
  refine or_congr (exists_congr fun before => exists_congr fun pos => old _ rfl (by simp))
    (or_congr (and_congr_right fun _ => old _ rfl (by simp))
      (exists_congr fun id => exists_congr fun entries => and_congr_left fun _ => old _ rfl (by simp)))

/-- Steps that write nothing at the page and leave its document and its chain. -/
theorem Upkeep.keep (upkeep : Upkeep τ c page)
    (silent : ∀ e ∈ evs, e.client = c → ∃ id b, e = .stored c id b)
    (doc : page'.client.doc = page.client.doc)
    (batches : chain (τ ++ evs) c page' = chain τ c page) : Upkeep (τ ++ evs) c page' := by
  refine upkeep.congr ?_ (fun e here unstored _ => ?_) (fun t ch => (wrote_append silent).2) batches
  · rw [doc]
    exact upkeep.records.congr fun t ch => (wrote_append silent).symm
  · rw [List.mem_append, or_iff_left]
    intro member
    obtain ⟨id, b, same⟩ := silent e member here
    exact unstored id b same

/-- What another page does leaves a page alone. -/
theorem Upkeep.other (upkeep : Upkeep τ c page) (elsewhere : ∀ e ∈ evs, e.client ≠ c) :
    Upkeep (τ ++ evs) c page := by
  refine upkeep.keep (fun e member here => absurd here (elsewhere e member)) rfl ?_
  unfold chain
  rw [storedBy_append, storedBy_eq_nil fun id b member => elsewhere _ member rfl, List.append_nil]

/-- A fresh page has written nothing. -/
theorem Upkeep.start (silent : ∀ e ∈ τ, e.client ≠ c) (count position : Int) :
    Upkeep τ c { client := Client.start count position, push := .idle, beat := .idle } := by
  have nothing : ∀ e : Event C Tag, e.client = c → e ∉ τ := fun e here member => silent e member here
  have wrote : ∀ t ch, ¬ Wrote τ c t ch := by
    rintro t ch (⟨before, pos, member⟩ | ⟨-, member⟩ | ⟨id, entries, member, -⟩) <;>
      exact nothing _ rfl member
  have batches : chain τ c { client := Client.start count position, push := .idle, beat := .idle } =
      [(∅ : Batch Tag)] := by
    unfold chain
    rw [storedBy_eq_nil fun id b => nothing _ rfl]
    rfl
  refine ⟨Pps.Records.fresh.congr fun t ch => iff_of_false not_false (wrote t ch), ?_, ?_, ?_, ?_, ?_⟩
  · rw [batches]
    simp
  · rw [batches]
    simp
  · rintro t ch ⟨before, pos, member⟩
    exact absurd member (nothing _ rfl)
  · intro t member
    exact absurd member (nothing _ rfl)
  · intro t member
    exact absurd member (nothing _ rfl)

/-- A pending write was made by the page. -/
theorem Upkeep.wrote (upkeep : Upkeep τ c page) {b : Batch Tag} (member : b ∈ chain τ c page)
    (found : b.lookup t = some ch) : Wrote τ c t ch := by
  rcases upkeep.source b member t ch found with ⟨-, insertion⟩ | ⟨zero, deletion⟩
  · exact Or.inl insertion
  · exact Or.inr (Or.inl ⟨zero, deletion⟩)

/-- The events of one edit of a page: they insert or delete the tag, and store and
apply nothing. -/
structure Edits (evs : List (Event C Tag)) (c : C) (t : Tag) (ch : CharCode) : Prop where
  unstored : Unstored evs
  unapplied : ∀ id entries, Event.applied c id entries ∉ evs
  inserts : ∀ u x, Inserts evs c u x ↔ u = t ∧ x = ch ∧ ch ≠ 0
  deletes : ∀ u, Event.deleted c u ∈ evs ↔ u = t ∧ ch = 0

theorem Edits.inserts_append (edits : Edits evs c t ch) (u : Tag) (x : CharCode) :
    Inserts (τ ++ evs) c u x ↔ Inserts τ c u x ∨ (u = t ∧ x = ch ∧ ch ≠ 0) := by
  rw [← edits.inserts]
  simp only [Inserts, List.mem_append, exists_or]

theorem Edits.deletes_append (edits : Edits evs c t ch) (u : Tag) :
    Event.deleted c u ∈ τ ++ evs ↔ Event.deleted c u ∈ τ ∨ (u = t ∧ ch = 0) := by
  rw [List.mem_append, edits.deletes]

/-- An edit writes its own code to its own tag. -/
theorem Edits.wrote_append (edits : Edits evs c t ch) (u : Tag) (x : CharCode) :
    Wrote (τ ++ evs) c u x ↔ Wrote τ c u x ∨ (u = t ∧ x = ch) := by
  have applied : ∀ id entries, Event.applied c id entries ∈ τ ++ evs ↔
      Event.applied c id entries ∈ τ := fun id entries => by
    rw [List.mem_append, or_iff_left (edits.unapplied id entries)]
  simp only [Wrote, edits.inserts_append, edits.deletes_append, applied]
  generalize (∃ id entries, Event.applied c id entries ∈ τ ∧ (u, x) ∈ entries) = received
  constructor
  · rintro ((insertion | ⟨here, same, -⟩) | ⟨zero, deletion | ⟨here, same⟩⟩ | got)
    · exact Or.inl (Or.inl insertion)
    · exact Or.inr ⟨here, same⟩
    · exact Or.inl (Or.inr (Or.inl ⟨zero, deletion⟩))
    · exact Or.inr ⟨here, zero.trans same.symm⟩
    · exact Or.inl (Or.inr (Or.inr got))
  · rintro ((insertion | ⟨zero, deletion⟩ | got) | ⟨here, same⟩)
    · exact Or.inl (Or.inl insertion)
    · exact Or.inr (Or.inl ⟨zero, Or.inl deletion⟩)
    · exact Or.inr (Or.inr got)
    · by_cases zero : ch = 0
      · exact Or.inr (Or.inl ⟨same.trans zero, Or.inr ⟨here, zero⟩⟩)
      · exact Or.inl (Or.inr ⟨here, same, zero⟩)

/-- The batches in front of the pending one. -/
def sentBefore (τ : List (Event C Tag)) (c : C) (page : Page Tag) : List (Batch Tag) :=
  (storedBy τ c).map Prod.snd ++ inFlight page.push

/-- The edit goes into the pending batch, at the end of the chain. -/
theorem Edits.chain_eq (edits : Edits evs c t ch) {client : Client Tag}
    (pending : client.pendingChanges = page.client.pendingChanges.insert t ch) :
    chain (τ ++ evs) c { page with client := client } =
      sentBefore τ c page ++ [page.client.pendingChanges.insert t ch] := by
  simp only [chain, sentBefore, pending, storedBy_append, storedBy_eq_nil fun id b => edits.unstored c id b,
    List.append_nil]

/-- A batch of the chain stays in it, with the edit where it was pending. -/
theorem Edits.moved (edits : Edits evs c t ch) {client : Client Tag}
    (pending : client.pendingChanges = page.client.pendingChanges.insert t ch) {b : Batch Tag}
    (member : b ∈ chain τ c page) :
    ∃ b' ∈ chain (τ ++ evs) c { page with client := client },
      (∀ u, u ∈ b → u ∈ b') ∧ ∀ u, u ≠ t → b'.lookup u = b.lookup u := by
  rw [edits.chain_eq pending]
  rcases List.mem_append.1 (show b ∈ sentBefore τ c page ++ [page.client.pendingChanges] from member) with
    front | last
  · exact ⟨b, List.mem_append_left _ front, fun u h => h, fun u _ => rfl⟩
  · rw [List.mem_singleton.1 last]
    refine ⟨_, List.mem_append_right _ (List.mem_singleton_self _), fun u h => ?_, fun u ne => ?_⟩
    · exact (AList.mem_insert _).2 (Or.inr h)
    · exact AList.lookup_insert_ne ne

/-- **One edit of a page**: an insertion of a new tag, or the deletion of a tag it
knows.  The edit goes into the pending batch. -/
theorem Upkeep.write {client : Client Tag} (upkeep : Upkeep τ c page) (edits : Edits evs c t ch)
    (fresh : ch ≠ 0 → ∀ x, ¬ Wrote τ c t x)
    (known : ch = 0 → t = tag0 ∨ t = tag1 ∨ ∃ x, x ≠ 0 ∧ Wrote τ c t x)
    (records : Pps.Records (fun u x => Wrote τ c u x ∨ (u = t ∧ x = ch)) client.doc)
    (pending : client.pendingChanges = page.client.pendingChanges.insert t ch) :
    Upkeep (τ ++ evs) c { page with client := client } := by
  have old : chain τ c page = sentBefore τ c page ++ [page.client.pendingChanges] := rfl
  have new : chain (τ ++ evs) c { page with client := client } =
      sentBefore τ c page ++ [page.client.pendingChanges.insert t ch] := edits.chain_eq pending
  have atLast : ∃ b ∈ chain (τ ++ evs) c { page with client := client }, b.lookup t = some ch :=
    ⟨_, new ▸ List.mem_append_right _ (List.mem_singleton_self _), AList.lookup_insert _⟩
  refine ⟨records.congr fun u x => (edits.wrote_append u x).symm, ?_, ?_, ?_, ?_, ?_⟩
  · intro b member u x found
    rw [edits.inserts_append, edits.deletes_append]
    have before : ∀ b ∈ chain τ c page, b.lookup u = some x →
        (x ≠ 0 ∧ (Inserts τ c u x ∨ u = t ∧ x = ch ∧ ch ≠ 0)) ∨
          (x = 0 ∧ (Event.deleted c u ∈ τ ∨ u = t ∧ ch = 0)) := fun b earlier found => by
      rcases upkeep.source b earlier u x found with ⟨ne, insertion⟩ | ⟨zero, deletion⟩
      · exact Or.inl ⟨ne, Or.inl insertion⟩
      · exact Or.inr ⟨zero, Or.inl deletion⟩
    rw [new] at member
    rcases List.mem_append.1 member with front | last
    · exact before b (old ▸ List.mem_append_left _ front) found
    · rw [List.mem_singleton.1 last] at found
      by_cases same : u = t
      · subst same
        rw [AList.lookup_insert] at found
        cases found
        by_cases zero : ch = 0
        · exact Or.inr ⟨zero, Or.inr ⟨rfl, zero⟩⟩
        · exact Or.inl ⟨zero, Or.inr ⟨rfl, rfl, zero⟩⟩
      · rw [AList.lookup_insert_ne same] at found
        exact before _ (old ▸ List.mem_append_right _ (List.mem_singleton_self _)) found
  · have later := upkeep.later
    rw [old] at later
    rw [new]
    obtain ⟨front, -, behind⟩ := List.pairwise_append.1 later
    refine List.pairwise_append.2 ⟨front, List.pairwise_singleton _ _, fun b member b' last => ?_⟩
    rw [List.mem_singleton.1 last]
    intro u x inBatch found
    by_cases same : u = t
    · subst same
      rw [AList.lookup_insert] at found
      cases found
      by_contra ne
      obtain ⟨y, wrote⟩ := Option.isSome_iff_exists.1 (AList.lookup_isSome.2 inBatch)
      exact fresh ne y (upkeep.wrote (old ▸ List.mem_append_left _ member) wrote)
    · rw [AList.lookup_insert_ne same] at found
      exact behind b member _ (List.mem_singleton_self _) u x inBatch found
  · intro u x insertion
    rcases (edits.inserts_append u x).1 insertion with before | ⟨rfl, rfl, -⟩
    · obtain ⟨b, member, inBatch⟩ := upkeep.insertions u x before
      obtain ⟨b', member', keys, -⟩ := edits.moved pending member
      exact ⟨b', member', keys u inBatch⟩
    · obtain ⟨b, member, found⟩ := atLast
      exact ⟨b, member, AList.lookup_isSome.1 (by simp [found])⟩
  · intro u deletion
    rcases (edits.deletes_append u).1 deletion with before | ⟨rfl, zero⟩
    · obtain ⟨b, member, found⟩ := upkeep.deletions u before
      by_cases same : u = t
      · -- the tag is not fresh, so the edit deletes it again
        subst same
        have zero : ch = 0 := by
          by_contra ne
          exact fresh ne 0 (upkeep.wrote member found)
        exact zero ▸ atLast
      · obtain ⟨b', member', -, values⟩ := edits.moved pending member
        exact ⟨b', member', (values u same).trans found⟩
    · exact zero ▸ atLast
  · intro u deletion
    simp only [edits.wrote_append]
    have before : (u = tag0 ∨ u = tag1 ∨ ∃ x, x ≠ 0 ∧ Wrote τ c u x) →
        u = tag0 ∨ u = tag1 ∨ ∃ x, x ≠ 0 ∧ (Wrote τ c u x ∨ u = t ∧ x = ch) := by
      rintro (zero | one | ⟨x, ne, wrote⟩)
      · exact Or.inl zero
      · exact Or.inr (Or.inl one)
      · exact Or.inr (Or.inr ⟨x, ne, Or.inl wrote⟩)
    rcases (edits.deletes_append u).1 deletion with earlier | ⟨rfl, zero⟩
    · exact before (upkeep.known u earlier)
    · exact before (known zero)

/-- The page hides tags of its list, one after the other. -/
theorem Upkeep.erase {tags : List Tag} (upkeep : Upkeep τ c page)
    (listed : ∀ t ∈ tags, t ∈ page.client.doc.ppsTags) :
    Upkeep (τ ++ tags.map fun tag => .deleted c tag) c
      { page with client := tags.foldl Client.hideTag page.client } := by
  induction tags generalizing τ page with
  | nil => simpa using upkeep
  | cons t rest ih =>
      have one : Upkeep (τ ++ [.deleted c t]) c { page with client := page.client.hideTag t } := by
        have edits : Edits [Event.deleted c t] c t 0 :=
          ⟨by simp [Unstored], by simp, by simp [Inserts], by simp⟩
        refine upkeep.write edits (fun ne => absurd rfl ne) (fun _ => ?_) ?_ rfl
        · exact (upkeep.records.mem t).1 (listed t (by simp))
        · exact upkeep.records.mark t false
      have all := ih one fun u member => listed u (by simp [member])
      rw [List.append_assoc] at all
      exact all

/-- The pending batch is sent. -/
theorem Upkeep.send (upkeep : Upkeep τ c page) (idle : page.push = .idle) :
    Upkeep τ c { page with
      client := { page.client with acknowledged := false, pendingChanges := ∅ }
      push := .sent page.client.pendingChanges } := by
  have batches : chain τ c { page with
      client := { page.client with acknowledged := false, pendingChanges := ∅ }
      push := .sent page.client.pendingChanges } = chain τ c page ++ [∅] := by
    simp [chain, idle, inFlight]
  refine ⟨upkeep.records, ?_, ?_, ?_, ?_, upkeep.known⟩
  · intro b member t ch found
    rw [batches] at member
    rcases List.mem_append.1 member with old | new
    · exact upkeep.source b old t ch found
    · rw [List.mem_singleton.1 new, AList.lookup_empty] at found
      cases found
  · rw [batches]
    refine List.pairwise_append.2 ⟨upkeep.later, List.pairwise_singleton _ _, fun b _ b' new => ?_⟩
    rw [List.mem_singleton.1 new]
    intro t ch _ found
    rw [AList.lookup_empty] at found
    cases found
  · intro t ch insertion
    obtain ⟨b, member, inBatch⟩ := upkeep.insertions t ch insertion
    exact ⟨b, batches ▸ List.mem_append_left _ member, inBatch⟩
  · intro t deletion
    obtain ⟨b, member, found⟩ := upkeep.deletions t deletion
    exact ⟨b, batches ▸ List.mem_append_left _ member, found⟩

/-! ## Several pages -/

/-- What is stored was written by its author. -/
theorem Converging.logged (converging : Converging τ S) (sound : Sound userName lower τ S) {id : Nat}
    {b : Batch Tag} (stored : Event.stored u id b ∈ τ) (found : b.lookup t = some ch) :
    (ch ≠ 0 ∧ Inserts τ u t ch) ∨ (ch = 0 ∧ Event.deleted u t ∈ τ) := by
  obtain ⟨page, opened⟩ := sound.log.authors _ stored
  exact (converging.upkeep u page opened).source b (stored_mem_chain stored) t ch found

/-- What is applied is an entry of a batch that another page pushed. -/
theorem Sound.applied_source (sound : Sound userName lower τ S) {id : Nat}
    {entries : List (Tag × CharCode)} (applied : Event.applied c id entries ∈ τ)
    (entry : (t, ch) ∈ entries) :
    ∃ u b, u ≠ c ∧ Event.stored u id b ∈ τ ∧ b.lookup t = some ch := by
  obtain ⟨page, opened⟩ := sound.log.authors _ applied
  obtain ⟨-, u, b, ne, stored, perm⟩ := sound.mail.applied c id entries applied page opened
  exact ⟨u, b, ne, stored, Batch.mem_pairs.1 (perm.mem_iff.1 entry)⟩

/-- Every code on a page was inserted by someone. -/
theorem Converging.wrote_code (converging : Converging τ S) (sound : Sound userName lower τ S)
    (ne : ch ≠ 0) (wrote : Wrote τ c t ch) : ∃ u, Inserts τ u t ch := by
  rcases wrote with insertion | ⟨zero, -⟩ | ⟨id, entries, applied, entry⟩
  · exact ⟨c, insertion⟩
  · exact absurd zero ne
  · obtain ⟨u, b, -, stored, found⟩ := sound.applied_source applied entry
    rcases converging.logged sound stored found with ⟨-, insertion⟩ | ⟨zero, -⟩
    · exact ⟨u, insertion⟩
    · exact absurd zero ne

/-- Whoever deletes a tag inside the document has it on the page. -/
theorem Converging.deleted_code (converging : Converging τ S) (sound : Sound userName lower τ S)
    (deleted : Event.deleted c t ∈ τ) (zero : t ≠ tag0) (one : t ≠ tag1) :
    ∃ x, x ≠ 0 ∧ Wrote τ c t x := by
  obtain ⟨page, opened⟩ := sound.log.authors _ deleted
  rcases (converging.upkeep c page opened).known t deleted with h | h | wrote
  · exact absurd h zero
  · exact absurd h one
  · exact wrote

/-- Nothing is written to a tag before it is inserted. -/
theorem Converging.wrote_inserted (converging : Converging τ S) (sound : Sound userName lower τ S)
    (zero : t ≠ tag0) (one : t ≠ tag1) (wrote : Wrote τ c t ch) : ∃ u x, Inserts τ u t x := by
  have deleted : ∀ d, Event.deleted d t ∈ τ → ∃ u x, Inserts τ u t x := fun d member => by
    obtain ⟨x, ne, wrote⟩ := converging.deleted_code sound member zero one
    obtain ⟨u, insertion⟩ := converging.wrote_code sound ne wrote
    exact ⟨u, x, insertion⟩
  rcases wrote with insertion | ⟨-, member⟩ | ⟨id, entries, applied, entry⟩
  · exact ⟨c, ch, insertion⟩
  · exact deleted c member
  · obtain ⟨u, b, -, stored, found⟩ := sound.applied_source applied entry
    rcases converging.logged sound stored found with ⟨-, insertion⟩ | ⟨-, member⟩
    · exact ⟨u, ch, insertion⟩
    · exact deleted u member

/-- Of two batches of one page, the later only deletes what the earlier wrote. -/
theorem Converging.later (converging : Converging τ S) (sound : Sound userName lower τ S)
    {id id' : Nat} {b b' : Batch Tag} (stored : Event.stored u id b ∈ τ)
    (stored' : Event.stored u id' b' ∈ τ) (ne : id ≠ id') : Later b b' ∨ Later b' b := by
  obtain ⟨page, opened⟩ := sound.log.authors _ stored
  have pairs : (storedBy τ u).Pairwise fun e e' => Later e.2 e'.2 := by
    have later := (converging.upkeep u page opened).later
    unfold chain at later
    exact List.pairwise_map.1 (List.pairwise_append.1 (List.pairwise_append.1 later).1).1
  have either : (storedBy τ u).Pairwise fun e e' => Later e.2 e'.2 ∨ Later e'.2 e.2 :=
    pairs.imp fun later => Or.inl later
  have : Std.Symm fun e e' : Nat × Batch Tag => Later e.2 e'.2 ∨ Later e'.2 e.2 :=
    ⟨fun _ _ => Or.symm⟩
  exact either.forall (mem_storedBy.2 stored) (mem_storedBy.2 stored') fun same =>
    ne (congrArg Prod.fst same)

/-- **Batches in ascending order**: of two stored batches, the one with the larger
id only deletes what the other wrote. -/
theorem Converging.ascending (converging : Converging τ S) (sound : Sound userName lower τ S)
    (distinct : Distinct τ) {u' : C} {id id' : Nat} {b b' : Batch Tag} {x : CharCode}
    (stored : Event.stored u id b ∈ τ) (stored' : Event.stored u' id' b' ∈ τ) (less : id < id')
    (found : b.lookup t = some x) (found' : b'.lookup t = some ch) : ch = 0 := by
  by_contra ne
  by_cases zero : x = 0
  · subst zero
    have := converging.order u id b u' id' b' t ch stored found stored' found' ne
    omega
  · rcases converging.logged sound stored found with ⟨-, insertion⟩ | ⟨h, -⟩
    · rcases converging.logged sound stored' found' with ⟨-, insertion'⟩ | ⟨h, -⟩
      · obtain ⟨rfl, -⟩ := distinct.author insertion insertion'
        rcases converging.later sound stored stored' less.ne with later | later
        · exact ne (later t ch (AList.lookup_isSome.1 (by simp [found])) found')
        · exact zero (later t x (AList.lookup_isSome.1 (by simp [found'])) found)
      · exact ne h
    · exact zero h

/-- **An insertion reaches a page before anything else about its tag.** -/
theorem Converging.first_write (converging : Converging τ S) (sound : Sound userName lower τ S)
    (distinct : Distinct τ) {id : Nat} {b : Batch Tag} (foreign : u ≠ c)
    (stored : Event.stored u id b ∈ τ) (found : b.lookup t = some ch) (ne : ch ≠ 0)
    (above : ∀ i entries, Event.applied c i entries ∈ τ → i < id) :
    t ≠ tag0 ∧ t ≠ tag1 ∧ ∀ x, ¬ Wrote τ c t x := by
  have insertion : Inserts τ u t ch := by
    rcases converging.logged sound stored found with ⟨-, insertion⟩ | ⟨zero, -⟩
    · exact insertion
    · exact absurd zero ne
  obtain ⟨not0, not1, -⟩ := distinct.tag insertion
  have own : ∀ x, ¬ Inserts τ c t x := fun x mine => foreign (distinct.author insertion mine).1
  have received : ∀ i entries x, Event.applied c i entries ∈ τ → (t, x) ∉ entries := by
    intro i entries x applied entry
    obtain ⟨d, b', -, stored', found'⟩ := sound.applied_source applied entry
    exact ne (converging.ascending sound distinct stored' stored (above i entries applied) found' found)
  refine ⟨not0, not1, fun x wrote => ?_⟩
  rcases wrote with mine | ⟨-, deleted⟩ | ⟨i, entries, applied, entry⟩
  · exact own x mine
  · obtain ⟨y, code, wrote⟩ := converging.deleted_code sound deleted not0 not1
    rcases wrote with mine | ⟨zero, -⟩ | ⟨i, entries, applied, entry⟩
    · exact own y mine
    · exact code zero
    · exact received i entries y applied entry
  · exact received i entries x applied entry

/-! ## Steps -/

/-- The reply of a heartbeat is applied. -/
theorem Converging.endBeat (converging : Converging τ S) (sound : Sound userName lower τ S)
    (distinct : Distinct τ) (opened : S.pages c = some page) {reply : HeartbeatReply (Batch Tag)}
    {transactions : List (Nat × List (Tag × CharCode))} (answered : page.beat = .answered reply)
    (reordered : System.Reorders transactions reply) :
    Upkeep (τ ++ transactions.map fun b => .applied c b.1 b.2) c { page with
      client := page.client.applyReply reply.userCount reply.userPosition transactions
      beat := .idle } := by
  have upkeep := converging.upkeep c page opened
  obtain ⟨ascending, each⟩ := sound.mail.answered c page reply opened answered
  obtain ⟨doc, pending, -⟩ := Client.applyBatches_spec
    { page.client with userCount := reply.userCount, userPosition := reply.userPosition } transactions
  have source : ∀ b ∈ transactions, page.client.lastReceivedGreatestSeqNum < b.1 ∧
      ∃ u batch, u ≠ c ∧ Event.stored u b.1 batch ∈ τ ∧ b.2.Perm batch.pairs := by
    intro b member
    obtain ⟨stored, inReply, same, perm⟩ := reordered.source member
    obtain ⟨above, u, ne, logged⟩ := each stored inReply
    exact ⟨same ▸ above, u, stored.2, ne, same ▸ logged, perm⟩
  have ids : transactions.map Prod.fst = reply.transactions.map Prod.fst := by
    unfold System.Reorders at reordered
    exact List.forall₂_eq_eq_eq ▸ List.forall₂_map_left_iff.2
      (List.forall₂_map_right_iff.2 (reordered.imp fun _ _ h => h.1))
  have records : Pps.Records
      (fun t ch => Wrote τ c t ch ∨ ∃ b ∈ transactions, (t, ch) ∈ b.2)
      (page.client.doc.attachAll (transactions.flatMap Prod.snd)) := by
    refine upkeep.records.attachBatches (fun b member => ?_) (fun b member e entry ne => ?_) ?_
    · obtain ⟨-, u, batch, -, -, perm⟩ := source b member
      exact (perm.map Prod.fst).nodup_iff.2 batch.nodup_pairs
    · obtain ⟨above, u, batch, foreign, stored, perm⟩ := source b member
      refine converging.first_write sound distinct foreign stored
        (Batch.mem_pairs.1 (perm.mem_iff.1 entry)) ne fun i entries applied => ?_
      have := (sound.mail.applied c i entries applied page opened).1
      omega
    · have strict : transactions.Pairwise fun b b' => b.1 < b'.1 :=
        List.pairwise_map.1 (ids ▸ ascending)
      refine strict.imp_of_mem fun {b b'} member member' less => ?_
      intro t x ch entry entry'
      obtain ⟨-, u, batch, -, stored, perm⟩ := source b member
      obtain ⟨-, u', batch', -, stored', perm'⟩ := source b' member'
      exact converging.ascending sound distinct stored stored' less
        (Batch.mem_pairs.1 (perm.mem_iff.1 entry)) (Batch.mem_pairs.1 (perm'.mem_iff.1 entry'))
  have wrote : ∀ t ch, Wrote (τ ++ transactions.map fun b => .applied c b.1 b.2) c t ch ↔
      Wrote τ c t ch ∨ ∃ b ∈ transactions, (t, ch) ∈ b.2 := by
    intro t ch
    simp only [Wrote, Inserts, List.mem_append, List.mem_map, reduceCtorEq, and_false, exists_false,
      or_false, Event.applied.injEq, true_and, or_assoc]
    refine or_congr_right (or_congr_right ?_)
    constructor
    · rintro ⟨id, entries, old | ⟨b, member, rfl, rfl⟩, entry⟩
      · exact Or.inl ⟨id, entries, old, entry⟩
      · exact Or.inr ⟨b, member, entry⟩
    · rintro (⟨id, entries, old, entry⟩ | ⟨b, member, entry⟩)
      · exact ⟨id, entries, Or.inl old, entry⟩
      · exact ⟨b.1, b.2, Or.inr ⟨b, member, rfl, rfl⟩, entry⟩
  have unstored : ∀ id b, Event.stored c id b ∉
      transactions.map fun b => (Event.applied c b.1 b.2 : Event C Tag) := by simp
  refine upkeep.congr ?_ (fun e here _ unapplied => ?_) (fun t ch old => (wrote t ch).2 (Or.inl old)) ?_
  · rw [Client.applyReply, doc]
    exact records.congr fun t ch => (wrote t ch).symm
  · rw [List.mem_append, or_iff_left]
    intro member
    obtain ⟨b, -, same⟩ := List.mem_map.1 member
    exact unapplied b.1 b.2 same.symm
  · unfold chain
    rw [storedBy_append, storedBy_eq_nil unstored, List.append_nil, Client.applyReply, pending]

/-- The page of `c` changes; the others see nothing of it. -/
theorem Converging.setPage (converging : Converging τ S) {redis : Redis Name (Batch Tag)}
    (upkeep : Upkeep (τ ++ evs) c page') (here : ∀ e ∈ evs, e.client = c)
    (order : ∀ d m b u k b' t ch, Event.stored d m b ∈ τ ++ evs → b.lookup t = some 0 →
      Event.stored u k b' ∈ τ ++ evs → b'.lookup t = some ch → ch ≠ 0 → k ≤ m) :
    Converging (τ ++ evs) (({ S with redis := redis } : System C Name Tag).setPage c page') where
  upkeep := by
    intro c' other opened
    rcases setPage_cases opened with ⟨rfl, rfl⟩ | ⟨ne, opened⟩
    · exact upkeep
    · exact (converging.upkeep c' other opened).other fun e member same =>
        ne (same.symm.trans (here e member))
  order := order

/-- A step that stores nothing keeps the order of the stored batches. -/
theorem Converging.order_append (converging : Converging τ S) (unstored : Unstored evs) :
    ∀ d m b u k b' t ch, Event.stored d m b ∈ τ ++ evs → b.lookup t = some 0 →
      Event.stored u k b' ∈ τ ++ evs → b'.lookup t = some ch → ch ≠ 0 → k ≤ m := by
  simp only [stored_append unstored]
  exact converging.order

/-- A new batch is in order: what it deletes was stored before, and what it inserts
nobody has deleted. -/
theorem Converging.order_stored (converging : Converging τ S) (sound : Sound userName lower τ S)
    (distinct : Distinct τ) {batch : Batch Tag} {id : Nat} (opened : S.pages c = some page)
    (sent : page.push = .sent batch) (grows : ∀ u i b, Event.stored u i b ∈ τ → i ≤ id) :
    ∀ d m b u k b' t ch, Event.stored d m b ∈ τ ++ [.stored c id batch] → b.lookup t = some 0 →
      Event.stored u k b' ∈ τ ++ [.stored c id batch] → b'.lookup t = some ch → ch ≠ 0 → k ≤ m := by
  intro d m b u k b' t ch deletion gone insertion found ne
  have upkeep := converging.upkeep c page opened
  have flying : batch ∈ chain τ c page := by simp [chain, sent, inFlight]
  -- the batch on its way only deletes what the stored batches of its page wrote
  have behind : ∀ i a x, Event.stored c i a ∈ τ → a.lookup t = some x → batch.lookup t = some ch →
      ch = 0 := by
    intro i a x stored earlier here
    have later := upkeep.later
    unfold chain at later
    obtain ⟨-, -, cross⟩ := List.pairwise_append.1 (List.pairwise_append.1 later).1
    refine cross a ?_ batch (by simp [sent, inFlight]) t ch ?_ here
    · exact List.mem_map_of_mem (mem_storedBy.2 stored)
    · exact AList.lookup_isSome.1 (by simp [earlier])
  rcases List.mem_append.1 deletion with old | new
  · rcases List.mem_append.1 insertion with old' | new'
    · exact converging.order d m b u k b' t ch old gone old' found ne
    · cases List.mem_singleton.1 new'
      exfalso
      have inserts : Inserts τ c t ch := by
        rcases upkeep.source batch flying t ch found with ⟨-, insertion⟩ | ⟨zero, -⟩
        · exact insertion
        · exact absurd zero ne
      obtain ⟨not0, not1, -⟩ := distinct.tag inserts
      have deleted : Event.deleted d t ∈ τ := by
        rcases converging.logged sound old gone with ⟨h, -⟩ | ⟨-, deleted⟩
        · exact absurd rfl h
        · exact deleted
      obtain ⟨x, code, wrote⟩ := converging.deleted_code sound deleted not0 not1
      rcases wrote with mine | ⟨zero, -⟩ | ⟨i, entries, applied, entry⟩
      · -- the page deletes a tag of its own that it has not stored yet
        obtain ⟨rfl, -⟩ := distinct.author mine inserts
        exact ne (behind m b 0 old gone found)
      · exact code zero
      · obtain ⟨v, a, -, stored, earlier⟩ := sound.applied_source applied entry
        rcases converging.logged sound stored earlier with ⟨-, theirs⟩ | ⟨zero, -⟩
        · obtain ⟨rfl, -⟩ := distinct.author theirs inserts
          exact ne (behind i a x stored earlier found)
        · exact code zero
  · cases List.mem_singleton.1 new
    rcases List.mem_append.1 insertion with old' | new'
    · exact grows u k b' old'
    · cases List.mem_singleton.1 new'
      exact le_rfl

/-- **Every step keeps the pages converging.** -/
theorem Step.converging (step : Step userName lower S evs S') (sound : Sound userName lower τ S)
    (distinct : Distinct (τ ++ evs)) (converging : Converging τ S) : Converging (τ ++ evs) S' := by
  cases step with
  | invalid => simpa using converging
  | login c closed free =>
      refine converging.setPage ?_ (by simp) (converging.order_append (by simp [Unstored]))
      rw [List.append_nil]
      refine Upkeep.start (fun e member same => ?_) _ _
      obtain ⟨page, opened⟩ := sound.log.authors e member
      rw [same, closed] at opened
      cases opened
  | type c page client pos ch tag opened typed =>
      obtain ⟨doc, inserted, rfl⟩ := Client.insertText_spec typed
      have upkeep := converging.upkeep c page opened
      have new : Inserts (τ ++ [.inserted c page.client pos ch tag]) c tag ch :=
        ⟨page.client, pos, by simp⟩
      obtain ⟨not0, not1, ne⟩ := distinct.tag new
      have fresh : ∀ x, ¬ Wrote τ c tag x := fun x wrote => by
        obtain ⟨u, y, before⟩ := converging.wrote_inserted sound not0 not1 wrote
        exact distinct.new before
      have pushed := Pps.insert_push upkeep.records.sorted inserted
      refine converging.setPage ?_ (by simp [Event.client])
        (converging.order_append (by simp [Unstored]))
      have edits : Edits [Event.inserted c page.client pos ch tag] c tag ch := by
        refine ⟨by simp [Unstored], by simp, fun u x => ?_, by simp [ne]⟩
        simp only [Inserts, List.mem_singleton, Event.inserted.injEq, true_and]
        constructor
        · rintro ⟨_, _, -, -, code, here⟩
          exact ⟨here, code, ne⟩
        · rintro ⟨here, code, -⟩
          exact ⟨_, _, rfl, rfl, code, here⟩
      refine upkeep.write edits (fun _ => fresh) (fun zero => absurd zero ne) ?_ rfl
      exact pushed ▸ upkeep.records.push ne not0 not1 fresh false
  | erase c page positions opened =>
      have upkeep := converging.upkeep c page opened
      refine converging.setPage (upkeep.erase fun t member => ?_) (by simp [Event.client])
        (converging.order_append (by simp [Unstored]))
      obtain ⟨pos, -, found⟩ := List.mem_filterMap.1 member
      exact Pps.delete_mem found
  | send c page opened ready =>
      have upkeep := converging.upkeep c page opened
      refine converging.setPage ?_ (by simp) (converging.order_append (by simp [Unstored]))
      rw [List.append_nil]
      exact upkeep.send (sound.mail.ready c page opened ready)
  | handlePush c page batch ids d opened sent listed =>
      refine converging.setPage ((converging.upkeep c page opened).keep (by simp) rfl ?_)
        (by simp [Event.client]) (converging.order_stored sound distinct.prefix_ opened sent ?_)
      · simp [chain, storedBy, inFlight, sent]
      · exact fun u i b stored => (sound.log.counter u i b stored).trans (le_intValue_succ _)
  | endPush c page id opened answered =>
      refine converging.setPage ((converging.upkeep c page opened).keep (by simp) rfl ?_) (by simp)
        (converging.order_append (by simp [Unstored]))
      simp [chain, answered, inFlight, Client.sendSuccess]
  | beat c page opened =>
      exact converging.setPage ((converging.upkeep c page opened).keep (by simp) rfl (by simp [chain]))
        (by simp) (converging.order_append (by simp [Unstored]))
  | handleBeat c page last reply position ids own opened sent user listed parsed count place new read =>
      exact converging.setPage ((converging.upkeep c page opened).keep (by simp) rfl (by simp [chain]))
        (by simp) (converging.order_append (by simp [Unstored]))
  | endBeat c page reply transactions opened answered reordered =>
      exact converging.setPage
        (converging.endBeat sound distinct.prefix_ opened answered reordered)
        (fun e member => by
          obtain ⟨b, -, rfl⟩ := List.mem_map.1 member
          rfl)
        (converging.order_append (by simp [Unstored]))

/-- **Every run converges.** -/
theorem converging_of_run (run : System.Run userName lower τ S) (distinct : Distinct τ) :
    Converging τ S :=
  Run.induct Distinct.prefix_ ⟨by simp [System.init], by simp⟩
    (fun sound distinct converging step => step.converging sound distinct converging) run distinct

/-! ## Quiescent states -/

/-- Nothing is pending or in flight. -/
def Page.Idle (page : Page Tag) : Prop :=
  page.client.pendingChanges.entries = [] ∧ page.push = .idle ∧ page.beat = .idle

instance (page : Page Tag) : Decidable page.Idle := inferInstanceAs (Decidable (_ ∧ _ ∧ _))

/-- The page of `c` has applied every batch of `u`. -/
def Received (τ : List (Event C Tag)) (c u : C) : Prop :=
  ∀ stored ∈ storedBy τ u, ∃ applied ∈ appliedBy τ c,
    applied.1 = stored.1 ∧ applied.2.Perm stored.2.pairs

instance (τ : List (Event C Tag)) (c u : C) : Decidable (Received τ c u) :=
  inferInstanceAs (Decidable (∀ stored ∈ storedBy τ u, _))

/-- All pages are idle, and every page has applied every batch of every other one. -/
structure Quiescent (τ : List (Event C Tag)) (S : System C Name Tag) : Prop where
  idle : ∀ c, ∀ page ∈ S.pages c, page.Idle
  received : ∀ c, ∀ _ ∈ S.pages c, ∀ u, u ≠ c → Received τ c u

instance [Fintype C] (τ : List (Event C Tag)) (S : System C Name Tag) : Decidable (Quiescent τ S) :=
  decidable_of_iff ((∀ c, ∀ page ∈ S.pages c, page.Idle) ∧
      ∀ c, ∀ _ ∈ S.pages c, ∀ u, u ≠ c → Received τ c u)
    ⟨fun h => ⟨h.1, h.2⟩, fun h => ⟨h.idle, h.received⟩⟩

/-- Nothing is pending or being pushed, and every page has applied every batch of every
other one.  Heartbeats may be under way. -/
structure Delivered (τ : List (Event C Tag)) (S : System C Name Tag) : Prop where
  sent : ∀ c page, S.pages c = some page → page.client.pendingChanges.entries = [] ∧ page.push = .idle
  received : ∀ c page, S.pages c = some page → ∀ u, u ≠ c → Received τ c u

instance [Fintype C] (τ : List (Event C Tag)) (S : System C Name Tag) : Decidable (Delivered τ S) :=
  decidable_of_iff ((∀ c, ∀ page ∈ S.pages c, page.client.pendingChanges.entries = [] ∧ page.push = .idle) ∧
      ∀ c, ∀ _ ∈ S.pages c, ∀ u, u ≠ c → Received τ c u)
    ⟨fun h => ⟨h.1, h.2⟩, fun h => ⟨h.sent, h.received⟩⟩

theorem Quiescent.delivered (quiescent : Quiescent τ S) : Delivered τ S where
  sent := fun c page opened => ⟨(quiescent.idle c page opened).1, (quiescent.idle c page opened).2.1⟩
  received := fun c page opened => quiescent.received c page opened

/-- Once all is delivered, whatever any page pushed has been written by every page. -/
theorem Converging.arrived (converging : Converging τ S) (sound : Sound userName lower τ S)
    (delivered : Delivered τ S) (opened : S.pages c = some page) {e : Event C Tag} (member : e ∈ τ)
    (writes : ∀ page, S.pages e.client = some page → ∃ b ∈ chain τ e.client page, b.lookup t = some ch) :
    Wrote τ c t ch := by
  obtain ⟨author, opened'⟩ := sound.log.authors e member
  obtain ⟨b, inChain, found⟩ := writes author opened'
  by_cases own : e.client = c
  · rw [own] at opened' inChain
    exact (converging.upkeep c author opened').wrote inChain found
  · obtain ⟨empty, push⟩ := delivered.sent e.client author opened'
    have pending : author.client.pendingChanges = ∅ := AList.ext empty
    have stored : b ∈ (storedBy τ e.client).map Prod.snd := by
      simp only [chain, pending, push, inFlight, List.append_nil, List.mem_append,
        List.mem_singleton] at inChain
      rcases inChain with stored | rfl
      · exact stored
      · rw [AList.lookup_empty] at found
        cases found
    obtain ⟨⟨id, b'⟩, logged, rfl⟩ := List.mem_map.1 stored
    obtain ⟨⟨id', entries⟩, applied, -, perm⟩ :=
      delivered.received c page opened e.client own _ logged
    exact Or.inr (Or.inr ⟨id', entries, mem_appliedBy.1 applied,
      perm.mem_iff.2 (Batch.mem_pairs.2 found)⟩)

/-- What one page has deleted, every page has deleted once all is delivered. -/
theorem deleted_everywhere (run : System.Run userName lower τ S) (distinct : Distinct τ)
    (delivered : Delivered τ S) (opened : S.pages c = some page) : Wrote τ c t 0 ↔ t ∈ deletedTags τ := by
  have sound := sound_of_run run
  have converging := converging_of_run run distinct
  rw [mem_deletedTags]
  constructor
  · rintro (insertion | ⟨-, deletion⟩ | ⟨id, entries, applied, entry⟩)
    · exact absurd rfl (distinct.tag insertion).2.2
    · exact ⟨c, deletion⟩
    · obtain ⟨u, batch, -, stored, found⟩ := sound.applied_source applied entry
      rcases converging.logged sound stored found with ⟨ne, -⟩ | ⟨-, deletion⟩
      · exact absurd rfl ne
      · exact ⟨u, deletion⟩
  · rintro ⟨u, deletion⟩
    exact converging.arrived sound delivered opened deletion fun author opened' =>
      (converging.upkeep u author opened').deletions t deletion

/-- What one page has typed and nobody has deleted, every page has once all is delivered. -/
theorem written_everywhere (run : System.Run userName lower τ S) (distinct : Distinct τ)
    (delivered : Delivered τ S) (opened : S.pages c = some page) (insertion : Inserts τ u t ch)
    (kept : t ∉ deletedTags τ) : Wrote τ c t ch := by
  have sound := sound_of_run run
  have converging := converging_of_run run distinct
  have ⟨before, pos, member⟩ := insertion
  refine converging.arrived sound delivered opened member fun author opened' => ?_
  obtain ⟨batch, inChain, written⟩ := (converging.upkeep u author opened').insertions t ch insertion
  obtain ⟨x, found⟩ := Option.isSome_iff_exists.1 (AList.lookup_isSome.2 written)
  rcases (converging.upkeep u author opened').source batch inChain t x found with ⟨-, again⟩ | ⟨-, deletion⟩
  · obtain ⟨-, rfl⟩ := distinct.author insertion again
    exact ⟨batch, inChain, found⟩
  · exact absurd (mem_deletedTags.2 ⟨u, deletion⟩) kept

/-- Once all is delivered every page shows the document of the trace. -/
theorem pages_show (run : System.Run userName lower τ S) (distinct : Distinct τ) (delivered : Delivered τ S)
    (opened : S.pages c = some page) : page.client.doc.text = some (document τ) := by
  have converging := converging_of_run run distinct
  refine (converging.upkeep c page opened).records.text_eq (distinct.nodup.sublist (List.filter_sublist.map _))
    fun t ch => ?_
  rw [survivors, List.mem_filter, decide_eq_true_eq, mem_inserted, deleted_everywhere run distinct delivered opened]
  constructor
  · rintro ⟨⟨u, insertion⟩, low, high, kept⟩
    exact ⟨(distinct.tag insertion).2.2, written_everywhere run distinct delivered opened insertion kept, kept, low,
      high⟩
  · rintro ⟨ne, wrote, kept, low, high⟩
    exact ⟨converging.wrote_code (sound_of_run run) ne wrote, low, high, kept⟩

/-- **All pages end with the same document.** -/
theorem pages_converge (run : System.Run userName lower τ S) (distinct : Distinct τ)
    (quiescent : Quiescent τ S) (opened : S.pages c = some page) :
    page.client.doc.text = some (document τ) :=
  pages_show run distinct quiescent.delivered opened

end Upkeep

/-- Two pages type at the same place; one deletes its first character before the
batch is sent. -/
def bothType : List (Action Bool ℚ) :=
  [.login false, .login true, .type false 0 97, .type false 0 98, .erase false [2], .type true 0 99,
    .send false, .send true, .handlePush true, .handlePush false, .endPush false, .beat true,
    .handleBeat true, .endPush true, .endBeat true [(2, [(1 / 4, 98), (1 / 2, 0)])], .beat false,
    .handleBeat false, .endBeat false [(1, [(3 / 4, 99)])]]

theorem pages_converge_two : ∃ (τ : List (Event Bool ℚ)) (S : System Bool Bool ℚ),
    System.Run id id τ S ∧
      ∀ c, ∃ page, S.pages c = some page ∧ page.client.doc.text = some [98, 99] := by
  obtain ⟨τ, S, run, distinct, quiescent, opened, same⟩ : ∃ (τ : List (Event Bool ℚ))
      (S : System Bool Bool ℚ), System.Run id id τ S ∧ Distinct τ ∧ Quiescent τ S ∧
        (∀ c, (S.pages c).isSome) ∧ document τ = [98, 99] :=
    Machine.Run.of_replay (show ((System.machine id id).exec bothType ([], System.init)).any _ = true by
      decide +kernel)
  refine ⟨τ, S, run, fun c => ?_⟩
  obtain ⟨page, opened⟩ := Option.isSome_iff_exists.1 (opened c)
  exact ⟨page, opened, same ▸ pages_converge run distinct quiescent opened⟩

end ColabEdit.Session
