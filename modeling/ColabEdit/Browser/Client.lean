/-
# ColabEdit.Browser.Client -- one page: its document and what it still has to push

The global variables of `colab.js` that editing and the two timers share, and
the functions that change them: `insertText`, `deleteText`, the coalescing of
`pendingChanges` into a batch, and the part of the heartbeat's success handler
that applies a reply.

The last section settles what a second delivery of a batch does. It is harmless
exactly where every entry is a deletion of a tag that shows no character
(`attachAll_again_iff`).

Pole: `Client.delivered_twice` is a batch of one insertion that doubles its character.
-/
import ColabEdit.Browser.Document
import Mathlib.Data.List.AList

namespace ColabEdit.Browser

set_option autoImplicit false

/-- A JavaScript object from tags to character codes: `pendingChanges`, the
`sentChanges` of a request, and a batch as the server stores it. -/
abbrev Batch (Tag : Type) := AList fun _ : Tag => CharCode

/-- The entries of a batch, in one order. -/
def Batch.pairs {Tag : Type} (b : Batch Tag) : List (Tag × CharCode) :=
  b.entries.map fun e => (e.1, e.2)

theorem Batch.mem_pairs {Tag : Type} [DecidableEq Tag] {b : Batch Tag} {t : Tag} {ch : CharCode} :
    (t, ch) ∈ b.pairs ↔ b.lookup t = some ch := by
  rw [← Option.mem_def, AList.mem_lookup_iff, Batch.pairs, List.mem_map]
  constructor
  · rintro ⟨⟨u, x⟩, member, same⟩
    cases same
    exact member
  · exact fun member => ⟨⟨t, ch⟩, member, rfl⟩

theorem Batch.nodup_pairs {Tag : Type} (b : Batch Tag) : (b.pairs.map Prod.fst).Nodup := by
  have keys : b.pairs.map Prod.fst = b.keys := by
    simp [Batch.pairs, AList.keys, List.keys, Function.comp_def]
  rw [keys]
  exact b.nodupKeys

namespace Pps

variable {Tag : Type} [LinearOrder Tag]

/-- `$.each(value, function (k, v) { PPS.attach(k, v); })`. -/
def attachAll (s : Pps Tag) (entries : List (Tag × CharCode)) : Pps Tag :=
  entries.foldl (fun s e => s.attach e.1 e.2) s

end Pps

structure Client (Tag : Type) where
  doc : Pps Tag
  pendingChanges : Batch Tag
  acknowledged : Bool
  lastReceivedGreatestSeqNum : Int
  /-- `localStorage.userCount` -/
  userCount : Int
  /-- `localStorage.userPosition` -/
  userPosition : Int

namespace Client

section Order

variable {Tag Num : Type} [LinearOrder Tag] [BigNum Num] [BigTag Tag Num]

/-- The page after a login that was answered with a count and a position. -/
def start (userCount userPosition : Int) : Client Tag where
  doc := Pps.fresh
  pendingChanges := ∅
  acknowledged := true
  lastReceivedGreatestSeqNum := -1
  userCount := userCount
  userPosition := userPosition

/-- `insertText` of `colab.js` at a caret.  `none` is an exception in
`PPS.insert`, or a position it did not find; a `null` tag would be written under
the key `'null'`. -/
def insertText (c : Client Tag) (pos : Nat) (ch : CharCode) : Option (Client Tag × Tag) :=
  match c.doc.insert c.userPosition c.userCount pos ch with
  | some (doc, some tag) =>
      some ({ c with doc := doc, pendingChanges := c.pendingChanges.insert tag ch }, tag)
  | _ => none

/-- `PPS.hide(deleteTag); pendingChanges[deleteTag] = 0`. -/
def hideTag (c : Client Tag) (tag : Tag) : Client Tag :=
  { c with doc := c.doc.hide tag, pendingChanges := c.pendingChanges.insert tag 0 }

/-- `deleteTags`: every position is looked up before the first tag is hidden. -/
def deleteTags (c : Client Tag) (positions : List Nat) : List Tag :=
  positions.filterMap c.doc.delete

def deletePositions (c : Client Tag) (positions : List Nat) : Client Tag :=
  (c.deleteTags positions).foldl hideTag c

/-- The positions that a backspace over the selection `[start, stop)` passes to
`PPS.delete`. -/
def backspaced (start stop : Nat) : List Nat :=
  if start ≠ 0 ∧ stop = start then [start]
  else if start < stop then List.range' (start + 1) (stop - start)
  else []

/-- `deleteText` with key 8. -/
def deleteText (c : Client Tag) (start stop : Nat) : Client Tag :=
  c.deletePositions (backspaced start stop)

/-- The turns of the loop of `pasteText` for the units from offset `step` on. -/
def pasteFrom (c : Client Tag) (step : Nat) : Text → Option (Client Tag × List Tag)
  | [] => some (c, [])
  | unit :: rest => do
      let (c, tag) ← c.insertText step unit.toUInt32
      let (c, tags) ← pasteFrom c (step + 1) rest
      return (c, tag :: tags)

/-- `pasteText` with `end = stop - 1`, and the tags of the pasted units.  `none` is
also a loop that runs past the text, where `charCodeAt` is `NaN`. -/
def pasteText (c : Client Tag) (start stop : Nat) (text : Text) :
    Option (Client Tag × List Tag) :=
  if stop - start ≤ text.length then c.pasteFrom start (text.take (stop - start)) else none

/-- The tick of `startSendChanges`: the page after it and `sentChanges`. -/
def send (c : Client Tag) : Option (Client Tag × Batch Tag) :=
  if c.acknowledged ∧ c.pendingChanges.entries ≠ [] then
    some ({ c with acknowledged := false, pendingChanges := ∅ }, c.pendingChanges)
  else none

/-- The success handler of `/sendChanges`. -/
def sendSuccess (c : Client Tag) : Client Tag := { c with acknowledged := true }

/-- One turn of the loop over `data.transactions`. -/
def applyBatch (c : Client Tag) (id : Nat) (entries : List (Tag × CharCode)) : Client Tag :=
  { c with
    lastReceivedGreatestSeqNum :=
      if c.lastReceivedGreatestSeqNum < id then id else c.lastReceivedGreatestSeqNum
    doc := c.doc.attachAll entries }

/-- The success handler of `/heartbeat`. -/
def applyReply (c : Client Tag) (userCount userPosition : Int)
    (transactions : List (Nat × List (Tag × CharCode))) : Client Tag :=
  transactions.foldl (fun c t => c.applyBatch t.1 t.2)
    { c with userCount := userCount, userPosition := userPosition }

/-- `insertText` changes the document and `pendingChanges` only. -/
theorem insertText_spec {c client : Client Tag} {pos : Nat} {ch : CharCode} {tag : Tag}
    (typed : c.insertText pos ch = some (client, tag)) :
    ∃ doc, c.doc.insert c.userPosition c.userCount pos ch = some (doc, some tag) ∧
      client = { c with doc := doc, pendingChanges := c.pendingChanges.insert tag ch } := by
  unfold insertText at typed
  split at typed
  · rename_i doc found inserted
    cases typed
    exact ⟨doc, inserted, rfl⟩
  · cases typed

omit [BigNum Num] [BigTag Tag Num] in
/-- Hiding tags changes the document and `pendingChanges` only. -/
theorem hideAll_eq (c : Client Tag) (tags : List Tag) :
    tags.foldl hideTag c = { c with
      doc := tags.foldl Pps.hide c.doc
      pendingChanges := tags.foldl (fun pending tag => pending.insert tag 0) c.pendingChanges } := by
  induction tags generalizing c with
  | nil => rfl
  | cons t rest ih => exact ih (c.hideTag t)

theorem applyBatch_cursor (c : Client Tag) (id : Nat) (entries : List (Tag × CharCode)) :
    c.lastReceivedGreatestSeqNum ≤ (c.applyBatch id entries).lastReceivedGreatestSeqNum ∧
      (id : Int) ≤ (c.applyBatch id entries).lastReceivedGreatestSeqNum := by
  unfold applyBatch
  dsimp only
  split <;> omega

/-- `lastReceivedGreatestSeqNum` after a reply with these ids. -/
def advance (last : Int) (ids : List Nat) : Int :=
  ids.foldl (fun last (id : Nat) => if last < id then (id : Int) else last) last

omit [BigNum Num] [BigTag Tag Num] in
theorem applyBatches_cursor (c : Client Tag) (transactions : List (Nat × List (Tag × CharCode))) :
    (transactions.foldl (fun c t => c.applyBatch t.1 t.2) c).lastReceivedGreatestSeqNum =
      advance c.lastReceivedGreatestSeqNum (transactions.map Prod.fst) := by
  induction transactions generalizing c with
  | nil => rfl
  | cons t rest ih =>
      rw [List.foldl_cons, ih]
      rfl

theorem le_advance (last : Int) (ids : List Nat) : last ≤ advance last ids := by
  induction ids generalizing last with
  | nil => exact le_rfl
  | cons id rest ih =>
      refine le_trans ?_ (ih (if last < id then (id : Int) else last))
      split <;> omega

/-- The cursor stays or becomes one of the ids. -/
theorem advance_mem (last : Int) (ids : List Nat) :
    advance last ids = last ∨ ∃ id ∈ ids, advance last ids = id := by
  induction ids generalizing last with
  | nil => exact Or.inl rfl
  | cons id rest ih =>
      change advance (if last < id then (id : Int) else last) rest = last ∨
        ∃ i ∈ id :: rest, advance (if last < id then (id : Int) else last) rest = i
      rcases ih (if last < id then (id : Int) else last) with same | ⟨i, member, same⟩
      · rw [same]
        split
        · exact Or.inr ⟨id, by simp, rfl⟩
        · exact Or.inl rfl
      · exact Or.inr ⟨i, by simp [member], same⟩

/-- The loop over the batches attaches one after the other, and the cursor
reaches every id. -/
theorem applyBatches_spec (c : Client Tag) (transactions : List (Nat × List (Tag × CharCode))) :
    let c' := transactions.foldl (fun c t => c.applyBatch t.1 t.2) c
    c'.doc = c.doc.attachAll (transactions.flatMap Prod.snd) ∧
      c'.pendingChanges = c.pendingChanges ∧ c'.acknowledged = c.acknowledged ∧
      c'.userCount = c.userCount ∧ c'.userPosition = c.userPosition ∧
      c.lastReceivedGreatestSeqNum ≤ c'.lastReceivedGreatestSeqNum ∧
      ∀ t ∈ transactions, (t.1 : Int) ≤ c'.lastReceivedGreatestSeqNum := by
  induction transactions generalizing c with
  | nil => exact ⟨rfl, rfl, rfl, rfl, rfl, le_rfl, by simp⟩
  | cons t rest ih =>
      obtain ⟨grows, reaches⟩ := c.applyBatch_cursor t.1 t.2
      obtain ⟨doc, pending, flag, count, position, cursor, ids⟩ := ih (c.applyBatch t.1 t.2)
      refine ⟨?_, pending, flag, count, position, grows.trans cursor, fun u member => ?_⟩
      · rw [List.foldl_cons, doc]
        simp [Pps.attachAll, applyBatch]
      · rcases List.mem_cons.1 member with rfl | later
        · exact reaches.trans cursor
        · exact ids u later

end Order

end Client

/-! ## A batch delivered again -/

namespace Pps

open BigTag

section Again

variable {Tag Num : Type} [LinearOrder Tag] [BigTag Tag Num]

/-- The list entries whose characters make up `piece('0', '1')`. -/
def drawn (s : Pps Tag) : List Tag :=
  match (sort s.ppsTags).idxOf? tag0, (sort s.ppsTags).idxOf? tag1 with
  | some lP, some rP => (((sort s.ppsTags).take (rP + 1)).drop lP).filter s.shown
  | _, _ => []

omit [BigTag Tag Num] in
@[simp] theorem attachAll_nil (s : Pps Tag) : s.attachAll [] = s := rfl

omit [BigTag Tag Num] in
@[simp] theorem attachAll_cons (s : Pps Tag) (e : Tag × CharCode) (rest : List (Tag × CharCode)) :
    s.attachAll (e :: rest) = (s.attach e.1 e.2).attachAll rest := rfl

omit [BigTag Tag Num] in
/-- No tag leaves the list. -/
theorem mem_attachAll_of_mem {s : Pps Tag} {entries : List (Tag × CharCode)} {t : Tag}
    (member : t ∈ s.ppsTags) : t ∈ (s.attachAll entries).ppsTags := by
  induction entries generalizing s with
  | nil => exact member
  | cons e rest ih =>
      rw [attachAll_cons]
      refine ih ?_
      by_cases zero : e.2 = 0
      · rw [zero, attach_zero]
        exact member
      · rw [attach_of_ne s e.1 zero, mem_push]
        exact Or.inl member

omit [BigTag Tag Num] in
theorem length_attachAll (s : Pps Tag) (entries : List (Tag × CharCode)) :
    (s.attachAll entries).ppsTags.length =
      s.ppsTags.length + entries.countP fun e => e.2 ≠ 0 := by
  induction entries generalizing s with
  | nil => rfl
  | cons e rest ih =>
      rw [attachAll_cons, ih]
      by_cases zero : e.2 = 0
      · rw [zero, attach_zero, mark_ppsTags, List.countP_cons_of_neg (by simpa using zero)]
      · rw [attach_of_ne s e.1 zero, push_ppsTags, List.countP_cons_of_pos (by simpa using zero)]
        simp only [sort, List.length_insertionSort, List.length_append, List.length_singleton]
        omega

omit [BigTag Tag Num] in
/-- Deletions leave the list alone and hide their tags. -/
theorem attachAll_deletions {s : Pps Tag} {entries : List (Tag × CharCode)}
    (deletions : ∀ e ∈ entries, e.2 = 0) :
    (s.attachAll entries).ppsTags = s.ppsTags ∧
      ∀ t, (s.attachAll entries).pps t = if t ∈ entries.map Prod.fst then some 0 else s.pps t := by
  induction entries generalizing s with
  | nil => exact ⟨rfl, fun t => by simp⟩
  | cons e rest ih =>
      obtain ⟨tags, marks⟩ := ih (s := s.mark e.1 0 true) fun d hd => deletions d (by simp [hd])
      rw [attachAll_cons, deletions e (by simp), attach_zero]
      refine ⟨tags, fun t => ?_⟩
      rw [marks]
      by_cases later : t ∈ rest.map Prod.fst
      · rw [if_pos later, if_pos (by simp [later])]
      · rw [if_neg later]
        by_cases same : t = e.1
        · subst same
          simp
        · rw [mark_pps_ne s same, if_neg (by simpa [same] using later)]

theorem text_eq_drawn (s : Pps Tag) :
    s.text = ((sort s.ppsTags).idxOf? tag0).bind fun _ => ((sort s.ppsTags).idxOf? tag1).map fun _ =>
      s.drawn.map s.char := by
  simp only [text, piece, drawn]
  generalize (sort s.ppsTags).idxOf? tag0 = first
  generalize (sort s.ppsTags).idxOf? tag1 = last
  cases first with
  | none => rfl
  | some lP =>
      cases last with
      | none => rfl
      | some rP => rfl

/-- What is drawn after hiding the tags of `hidden` is what was drawn without them. -/
theorem drawn_of_hidden {s s' : Pps Tag} {hidden : List Tag} (tags : s'.ppsTags = s.ppsTags)
    (marks : ∀ t, s'.pps t = if t ∈ hidden then some 0 else s.pps t) :
    s'.drawn = s.drawn.filter fun t => t ∉ hidden := by
  have shown : ∀ t, s'.shown t = (s.shown t && decide (t ∉ hidden)) := fun t => by
    by_cases h : t ∈ hidden <;> simp [Pps.shown, marks, h]
  unfold drawn
  rw [tags]
  split
  · rw [List.filter_filter]
    exact List.filter_congr fun t _ => by rw [shown, Bool.and_comm]
  · rfl

/-- **A second delivery is harmless exactly for deletions of tags that show
nothing.**  Every insertion pushes its tag again. -/
theorem attachAll_again_iff (s : Pps Tag) (entries : List (Tag × CharCode)) :
    (s.attachAll entries).text = s.text ∧ (s.attachAll entries).ppsTags.Perm s.ppsTags ↔
      ∀ e ∈ entries, e.2 = 0 ∧ e.1 ∉ s.drawn := by
  constructor
  · rintro ⟨same, perm⟩
    have count : entries.countP (fun e => e.2 ≠ 0) = 0 := by
      have := length_attachAll s entries
      rw [perm.length_eq] at this
      omega
    have deletions : ∀ e ∈ entries, e.2 = 0 := fun e he => by
      simpa using List.countP_eq_zero.1 count e he
    obtain ⟨tags, marks⟩ := attachAll_deletions (s := s) deletions
    have less := drawn_of_hidden tags marks
    refine fun e he => ⟨deletions e he, fun drawn => ?_⟩
    have lengths : (s.attachAll entries).drawn.length = s.drawn.length := by
      rw [text_eq_drawn, text_eq_drawn, tags] at same
      unfold Pps.drawn at drawn
      split at drawn
      · rename_i lP rP first last
        simp only [first, last, Option.bind_some, Option.map_some, Option.some.injEq] at same
        simpa using congrArg List.length same
      · exact absurd drawn List.not_mem_nil
    rw [less] at lengths
    have kept := List.length_filter_eq_length_iff.1 lengths e.1 drawn
    simp only [decide_eq_true_eq] at kept
    exact kept (List.mem_map_of_mem he)
  · intro harmless
    obtain ⟨tags, marks⟩ := attachAll_deletions (s := s) fun e he => (harmless e he).1
    have absent : ∀ t ∈ s.drawn, t ∉ entries.map Prod.fst := fun t drawn member => by
      obtain ⟨e, he, rfl⟩ := List.mem_map.1 member
      exact (harmless e he).2 drawn
    have less : (s.attachAll entries).drawn = s.drawn := by
      rw [drawn_of_hidden tags marks]
      exact List.filter_eq_self.2 fun t drawn => by simpa using absent t drawn
    refine ⟨?_, by rw [tags]⟩
    have chars : s.drawn.map (s.attachAll entries).char = s.drawn.map s.char :=
      List.map_congr_left fun t drawn =>
        char_of_pps_eq (by rw [marks, if_neg (absent t drawn)])
    rw [text_eq_drawn, text_eq_drawn, tags, less, chars]

end Again

end Pps

/-- A page that applies a batch again, under whatever id, keeps its document and
its tags exactly where the batch deletes tags that show nothing. -/
theorem Client.applyBatch_again_iff {Tag Num : Type} [LinearOrder Tag] [BigTag Tag Num]
    (c : Client Tag) (id : Nat) (entries : List (Tag × CharCode)) :
    (c.applyBatch id entries).doc.text = c.doc.text ∧
        (c.applyBatch id entries).doc.ppsTags.Perm c.doc.ppsTags ↔
      ∀ e ∈ entries, e.2 = 0 ∧ e.1 ∉ c.doc.drawn :=
  c.doc.attachAll_again_iff entries

/-- The insertion of `a`, stored under two ids and applied twice, shows `aa`. -/
theorem Client.delivered_twice :
    let once := (Client.start 1 0 : Client ℚ).applyBatch 1 [(1 / 2, 97)]
    once.doc.text = some [97] ∧ (once.applyBatch 2 [(1 / 2, 97)]).doc.text = some [97, 97] := by
  decide +kernel

end ColabEdit.Browser
