/-
# ColabEdit.Session.Pieces -- the server's document and the page's

One history of insertions and deletions, attached and hidden at the server
(`app/model/pps.py`) and attached on a page (`PPS.attach` of `colab.js`), both
from the empty document.  The lists of tags stay the same, and a field of the
server's `pps` is the letter that the page holds, or `'0'` for a hidden tag
(`Same`).

A field is the byte string that Redis keeps: `Connection.encode` of `redis-py`
writes a string in UTF-8, in Python 2 also half of a surrogate pair, and the bytes
come back as they are.  A byte is a character below 256 here.

The pieces differ in three ways.  The server takes the slice up to the right tag,
the page up to and with it; a typed `'0'` is stored as the string that hides a tag;
and of a character beyond one UTF-16 unit the page shows only the low sixteen bits.
`pieces_agree_iff`: two pieces agree exactly if none of these comes into play, or if
the first and the last meet in one accident of the units (`Accident`).

Poles: `zero_hidden` and `right_left_out`.
-/
import ColabEdit.Browser.Big
import ColabEdit.Browser.History
import ColabEdit.Server.Text
import ColabEdit.Theory.Unicode
import Mathlib.Data.List.Flatten

namespace ColabEdit.Session

open ColabEdit.Browser ColabEdit.Server
open ColabEdit.Theory
open Unicode (unitsOf utf8 utf16)

set_option autoImplicit false

/-! ## Histories -/

/-- A character with a code other than 0.  Half of a surrogate pair is one: the page
stores the units of a paste one by one. -/
structure Letter where
  code : CharCode
  ne : code ≠ 0
  bound : code.toNat < 0x110000
  deriving DecidableEq

/-- The bytes of the letter as the server stores them. -/
def Letter.bytes (c : Letter) : String := .ofList ((utf8 c.code.toNat).map Char.ofNat)

inductive Op where
  | insert (tag : String) (c : Letter)
  | delete (tag : String)

namespace Op

def tag : Op → String
  | insert tag _ => tag
  | delete tag => tag

/-- What the tag shows after the operation. -/
def letter : Op → Option Letter
  | insert _ c => some c
  | delete _ => none

/-- What the page attaches. -/
def entry : Op → String × CharCode
  | insert tag c => (tag, c.code)
  | delete tag => (tag, 0)

/-- What the server attaches or hides. -/
def edit : Op → DocEdit
  | insert tag c => .attach tag c.bytes
  | delete tag => .hide tag

end Op

/-- What the last operation on a tag made it show. -/
def last (ops : List Op) (t : String) : Option Letter :=
  ops.foldl (fun shows op => if op.tag = t then op.letter else shows) none

/-- The page after the operations. -/
def page (ops : List Op) : Pps String := Pps.fresh.attachAll (ops.map Op.entry)

/-- The server's document after `PPS()` and the operations, from the empty store. -/
def stored (Name Batch : Type) [DecidableEq Name] (ops : List Op) : DocStore :=
  ((PPS.init Name Batch >>= fun _ => PPS.editAll Name Batch (ops.map Op.edit)).run Cmd.exec
    Redis.empty).2.doc

/-- The text of a string of bytes. -/
def decoded (s : String) : Text := unitsOf (s.toList.map Char.toNat)

/-- The two pieces are the same text. -/
def Agree (Name Batch : Type) [DecidableEq Name] (ops : List Op) (l r : String) : Prop :=
  (PPS.piece (stored Name Batch ops) l r).map decoded = (page ops).piece l r

instance (Name Batch : Type) [DecidableEq Name] (ops : List Op) (l r : String) :
    Decidable (Agree Name Batch ops l r) := inferInstanceAs (Decidable (_ = _))

theorem last_concat (ops : List Op) (op : Op) (t : String) :
    last (ops ++ [op]) t = if op.tag = t then op.letter else last ops t := List.foldl_concat ..

theorem last_self (ops : List Op) (op : Op) : last (ops ++ [op]) op.tag = op.letter := by
  rw [last_concat, if_pos rfl]

theorem last_ne (ops : List Op) (op : Op) {t : String} (ne : op.tag ≠ t) :
    last (ops ++ [op]) t = last ops t := by
  rw [last_concat, if_neg ne]

/-- What a tag shows was typed there. -/
theorem last_mem {ops : List Op} {t : String} {c : Letter} (shows : last ops t = some c) :
    .insert t c ∈ ops := by
  induction ops using List.reverseRecOn with
  | nil => cases shows
  | append_singleton ops op ih =>
      rw [last_concat] at shows
      split at shows
      · rename_i here
        cases op with
        | insert tag d =>
            cases shows
            cases here
            exact List.mem_append_right _ (List.mem_singleton_self _)
        | delete tag => cases shows
      · exact List.mem_append_left _ (ih shows)

/-- The code a tag holds on the page. -/
def codeOf : Option Letter → CharCode
  | some c => c.code
  | none => 0

/-- The field of a tag at the server. -/
def fieldOf : Option Letter → String
  | some c => c.bytes
  | none => "0"

theorem lastCode_entries (ops : List Op) (t : String) :
    lastCode (ops.map Op.entry) t = codeOf (last ops t) := by
  induction ops using List.reverseRecOn with
  | nil => rfl
  | append_singleton ops op ih =>
      have tag : op.entry.1 = op.tag := by cases op <;> rfl
      have code : op.entry.2 = codeOf op.letter := by cases op <;> rfl
      rw [List.map_append, List.map_singleton, lastCode_concat, ih, tag, code]
      by_cases here : op.tag = t
      · subst here
        rw [if_pos rfl, last_self]
      · rw [if_neg here, last_ne ops op here]

theorem codeOf_eq_zero {x : Option Letter} : codeOf x = 0 ↔ x = none := by
  cases x with
  | none => exact ⟨fun _ => rfl, fun _ => rfl⟩
  | some c => exact ⟨fun zero => absurd zero c.ne, fun none => by cases none⟩

/-! ## The two documents -/

structure Same (ops : List Op) (d : DocStore) (s : Pps String) : Prop where
  tags : d.tags = s.ppsTags
  fields : ∀ t ∈ d.tags, d.pps.lookup t = some (fieldOf (last ops t))

/-- **One operation at both ends.** -/
theorem Same.step {ops : List Op} {d : DocStore} {s : Pps String} (same : Same ops d s) (op : Op) :
    Same (ops ++ [op]) (PPS.edited d op.edit) (s.attach op.entry.1 op.entry.2) := by
  cases op with
  | insert tag c =>
      show Same _ (PPS.attached d tag c.bytes) (s.attach tag c.code)
      rw [Pps.attach_of_ne s tag c.ne]
      refine ⟨?_, fun t member => ?_⟩
      · rw [Pps.push_ppsTags, Pps.sort, ← same.tags]
        rfl
      · show (d.pps.insert tag _).lookup t = _
        by_cases here : tag = t
        · subst here
          rw [AList.lookup_insert, show last _ tag = some c from last_self ops (.insert tag c)]
          rfl
        · have old : t ∈ d.tags ++ [tag] := (List.mem_insertionSort _).1 member
          rw [AList.lookup_insert_ne (Ne.symm here), last_ne ops (.insert tag c) here]
          refine same.fields t ((List.mem_append.1 old).resolve_right fun now => ?_)
          exact here (List.mem_singleton.1 now).symm
  | delete tag =>
      show Same _ (PPS.hidden d tag) (s.attach tag 0)
      rw [Pps.attach_zero]
      unfold PPS.hidden
      by_cases present : tag ∈ d.pps
      · rw [if_pos present]
        refine ⟨same.tags, fun t member => ?_⟩
        show (d.pps.insert tag _).lookup t = _
        by_cases here : tag = t
        · subst here
          rw [AList.lookup_insert, show last _ tag = none from last_self ops (.delete tag)]
          rfl
        · rw [AList.lookup_insert_ne (Ne.symm here), last_ne ops (.delete tag) here]
          exact same.fields t member
      · -- a tag without a field is not in the list
        rw [if_neg present]
        refine ⟨same.tags, fun t member => ?_⟩
        have here : ¬ tag = t := fun is => present (by
          rw [is, ← AList.lookup_isSome, same.fields t member]
          rfl)
        rw [last_ne ops (.delete tag) here]
        exact same.fields t member

theorem stored_eq (Name Batch : Type) [DecidableEq Name] (ops : List Op) :
    stored Name Batch ops =
      (ops.map Op.edit).foldl PPS.edited (PPS.made (Redis.empty : Redis Name Batch).doc) := by
  have wellFormed : .malformed ∉ ops.map Op.edit := fun member => by
    obtain ⟨op, -, is⟩ := List.mem_map.1 member
    cases op <;> cases is
  rw [stored, Prog.run_bind, PPS.init_made]
  show ((PPS.editAll Name Batch (ops.map Op.edit)).run Cmd.exec _).2.doc = _
  rw [PPS.editAll_edited wellFormed]

/-- **The documents stay the same data.** -/
theorem same (Name Batch : Type) [DecidableEq Name] (ops : List Op) :
    Same ops (stored Name Batch ops) (page ops) := by
  rw [stored_eq, page]
  induction ops using List.reverseRecOn with
  | nil =>
      refine ⟨rfl, fun t member => ?_⟩
      have ends : t = "0" ∨ t = "1" := by simpa [PPS.made, Redis.empty] using member
      rcases ends with rfl | rfl <;> rfl
  | append_singleton ops op ih =>
      rw [List.map_append, List.map_append, List.foldl_append, List.map_singleton, List.map_singleton,
        Pps.attachAll_concat]
      exact ih.step op

/-! ## The two pieces -/

/-- What a tag adds to the text at the server. -/
def served (x : Option Letter) : Text := decoded (PPS.shown (fieldOf x))

/-- What it adds on the page. -/
def drawn (x : Option Letter) : Text := Pps.units (codeOf x)

theorem drawn_some (c : Letter) : drawn (some c) = [c.code.toUInt16] := if_neg c.ne

theorem drawn_eq_nil {x : Option Letter} : drawn x = [] ↔ x = none := by
  cases x with
  | none => exact ⟨fun _ => rfl, fun _ => rfl⟩
  | some c => simp [drawn_some]

theorem bytes_toNat (c : Letter) : c.bytes.toList.map Char.toNat = utf8 c.code.toNat := by
  rw [Letter.bytes, String.toList_ofList, List.map_map]
  refine (List.map_congr_left fun b member => ?_).trans (List.map_id _)
  have byte := Unicode.utf8_lt c.bound b member
  show (Char.ofNat b).toNat = b
  rw [Char.ofNat, dif_pos (Or.inl (by omega))]
  rfl

/-- The bytes of a letter read as its units, whatever stands behind them. -/
theorem unitsOf_bytes (c : Letter) (rest : List Nat) :
    unitsOf (c.bytes.toList.map Char.toNat ++ rest) = utf16 c.code.toNat ++ unitsOf rest := by
  rw [bytes_toNat, Unicode.unitsOf_utf8 c.bound]

theorem decoded_bytes (c : Letter) : decoded c.bytes = utf16 c.code.toNat := by
  have read := unitsOf_bytes c []
  rwa [List.append_nil, unitsOf, List.append_nil] at read

/-- Only the character `'0'` is stored as `'0'`. -/
theorem bytes_ne {c : Letter} (nonzero : c.code ≠ 48) : c.bytes ≠ "0" := fun same => by
  have read := decoded_bytes c
  rw [same] at read
  by_cases narrow : c.code.toNat < 0x10000
  · rw [Unicode.utf16_of_lt narrow] at read
    have codes := congrArg UInt16.toNat (List.cons.inj read).1
    rw [UInt16.toNat_ofNat_of_lt' narrow] at codes
    exact nonzero (UInt32.toNat_inj.1 codes.symm)
  · obtain ⟨high, low, pair, -, -⟩ := Unicode.utf16_of_ge (not_lt.1 narrow) c.bound
    rw [pair] at read
    have lengths : 1 = 2 := congrArg List.length read
    cases lengths

theorem served_zero {c : Letter} (zero : c.code = 48) : served (some c) = [] := by
  rw [served, fieldOf, Letter.bytes, zero]
  rfl

theorem served_some {c : Letter} (nonzero : c.code ≠ 48) : served (some c) = utf16 c.code.toNat := by
  rw [served, fieldOf, PPS.shown, if_pos (bytes_ne nonzero), decoded_bytes]

/-- The text of a list of fields, one after the other. -/
theorem unitsOf_fields (W : List (Option Letter)) :
    unitsOf ((W.flatMap fun x => (PPS.shown (fieldOf x)).toList).map Char.toNat) = W.flatMap served := by
  induction W with
  | nil => rfl
  | cons x rest ih =>
      rw [List.flatMap_cons, List.flatMap_cons, List.map_append, ← ih]
      cases x with
      | none => rfl
      | some c =>
          by_cases zero : c.code = 48
          · rw [served_zero zero, fieldOf, Letter.bytes, zero]
            rfl
          · rw [served_some zero, fieldOf, PPS.shown, if_pos (bytes_ne zero), unitsOf_bytes]

/-- What is shown is a character of one unit other than `'0'`. -/
def Plain (x : Option Letter) : Prop := ∀ c ∈ x, c.code ≠ 48 ∧ c.code.toNat < 0x10000

theorem plain_none : Plain none := fun c is => by cases is

theorem plain_some {c : Letter} : Plain (some c) ↔ c.code ≠ 48 ∧ c.code.toNat < 0x10000 :=
  ⟨fun plain => plain c rfl, fun plain d is => by rwa [← Option.some.inj is]⟩

/-- A plain letter is the same at both ends. -/
theorem Plain.served_eq {x : Option Letter} (plain : Plain x) : served x = drawn x := by
  cases x with
  | none => rfl
  | some c =>
      obtain ⟨nonzero, narrow⟩ := plain_some.1 plain
      rw [served_some nonzero, Unicode.utf16_of_lt narrow, drawn_some]
      rfl

theorem served_flatMap {W : List (Option Letter)} (plain : ∀ x ∈ W, Plain x) : W.flatMap served = W.flatMap drawn :=
  List.flatMap_congr fun x member => (plain x member).served_eq

/-! ## Counting units -/

/-- The letter is beyond one unit. -/
def wide (x : Option Letter) : Bool := x.any fun c => decide (0x10000 ≤ c.code.toNat)

/-- The letter is `'0'`. -/
def nought (x : Option Letter) : Bool := x.any fun c => decide (c.code = 48)

/-- The letter is half of a pair. -/
def half (x : Option Letter) : Bool :=
  x.any fun c => decide (c.code.toNat < 0x10000) && Unicode.surrogate c.code.toUInt16

theorem plain_iff {x : Option Letter} : Plain x ↔ wide x = false ∧ nought x = false := by
  cases x with
  | none => simp [plain_none, wide, nought]
  | some c => simp [plain_some, wide, nought, and_comm]

/-- What one letter weighs at both ends. -/
theorem weigh (x : Option Letter) :
    (served x).length + [x].countP nought = (drawn x).length + [x].countP wide ∧
      (served x).countP Unicode.surrogate = 2 * [x].countP wide + [x].countP half ∧
      (drawn x).countP Unicode.surrogate ≤ [x].countP wide + [x].countP half := by
  cases x with
  | none => exact ⟨rfl, rfl, le_rfl⟩
  | some c =>
      by_cases zero : c.code = 48
      · have narrow : wide (some c) = false := by simp [wide, zero]
        have whole : half (some c) = false := by
          simp only [half, Option.any_some, zero]
          decide
        rw [served_zero zero, drawn_some, zero]
        simp [narrow, whole, nought, zero]
        decide
      · have nonzero : nought (some c) = false := by simp [nought, zero]
        by_cases unit : c.code.toNat < 0x10000
        · have narrow : wide (some c) = false := by simpa [wide] using unit
          have lone : half (some c) = Unicode.surrogate c.code.toUInt16 := by simp [half, unit]
          rw [(plain_some.2 ⟨zero, unit⟩).served_eq, drawn_some]
          simp [nonzero, narrow, lone, List.countP_singleton]
        · obtain ⟨high, low, is, first, second⟩ := Unicode.utf16_of_ge (not_lt.1 unit) c.bound
          have big : wide (some c) = true := by simpa [wide] using not_lt.1 unit
          have whole : half (some c) = false := by simp [half, unit]
          rw [served_some zero, is, drawn_some]
          refine ⟨by simp [nonzero, big], by simp [first, second, big, whole], ?_⟩
          rw [List.countP_singleton, List.countP_singleton, big, if_pos rfl]
          split <;> omega

theorem weighAll (W : List (Option Letter)) :
    (W.flatMap served).length + W.countP nought = (W.flatMap drawn).length + W.countP wide ∧
      (W.flatMap served).countP Unicode.surrogate = 2 * W.countP wide + W.countP half ∧
      (W.flatMap drawn).countP Unicode.surrogate ≤ W.countP wide + W.countP half := by
  induction W with
  | nil => exact ⟨rfl, rfl, le_rfl⟩
  | cons x rest ih =>
      obtain ⟨length, double, single⟩ := ih
      obtain ⟨length₁, double₁, single₁⟩ := weigh x
      have split : ∀ p : Option Letter → Bool, (x :: rest).countP p = [x].countP p + rest.countP p := fun p => by
        rw [← List.singleton_append, List.countP_append]
      rw [List.flatMap_cons, List.flatMap_cons, List.length_append, List.length_append, List.countP_append,
        List.countP_append, split, split, split]
      omega

theorem all_plain {W : List (Option Letter)} (narrow : W.countP wide = 0) (nonzero : W.countP nought = 0) :
    ∀ x ∈ W, Plain x := fun x member =>
  plain_iff.2 ⟨by simpa using List.countP_eq_zero.1 narrow x member,
    by simpa using List.countP_eq_zero.1 nonzero x member⟩

/-- A list that is the same after a step to the right repeats one element. -/
theorem cons_eq_concat_iff {α : Type} {a z : α} {l : List α} : a :: l = l ++ [z] ↔ (∀ x ∈ l, x = a) ∧ z = a := by
  induction l generalizing a with
  | nil => simp [eq_comm]
  | cons b rest ih =>
      rw [List.cons_append, List.cons.injEq, ih]
      constructor
      · rintro ⟨rfl, each, last⟩
        exact ⟨List.forall_mem_cons.2 ⟨rfl, each⟩, last⟩
      · rintro ⟨each, last⟩
        obtain ⟨rfl, each⟩ := List.forall_mem_cons.1 each
        exact ⟨rfl, each, last⟩

/-- **When the two texts are the same.**  Only plain letters and nothing at the right
end; or one letter beyond one unit, whose first unit is the low bits of its code and
whose second is every letter behind it and the low bits of the letter at the right end. -/
theorem served_eq_drawn_iff (W : List (Option Letter)) (y : Option Letter) :
    W.flatMap served = W.flatMap drawn ++ drawn y ↔
      ((∀ x ∈ W, Plain x) ∧ y = none) ∨
        ∃ A c B d low, W = A ++ some c :: B ∧ y = some d ∧ (∀ x ∈ A, Plain x) ∧
          (∀ x ∈ B, ∀ b ∈ x, b.code.toNat = UInt16.toNat low) ∧
          utf16 c.code.toNat = [c.code.toUInt16, low] ∧ d.code.toUInt16 = low := by
  constructor
  · intro same
    obtain ⟨length, double, single⟩ := weighAll W
    have lengths := congrArg List.length same
    have halves := congrArg (List.countP Unicode.surrogate) same
    rw [List.length_append] at lengths
    rw [List.countP_append] at halves
    have few := (drawn y).countP_le_length (p := Unicode.surrogate)
    cases y with
    | none =>
        have nothing : (drawn none).length = 0 := rfl
        exact .inl ⟨all_plain (by omega) (by omega), rfl⟩
    | some d =>
        have one : (drawn (some d)).length = 1 := by rw [drawn_some]; rfl
        -- one letter is beyond one unit, and no letter is `'0'`
        have big : W.countP wide = 1 := by omega
        have nonzero : W.countP nought = 0 := by omega
        obtain ⟨x, member, is⟩ := List.countP_pos_iff.1 (big ▸ Nat.one_pos)
        obtain ⟨c, rfl, wider⟩ := (Option.any_eq_true _ _).1 is
        obtain ⟨A, B, rfl⟩ := List.append_of_mem member
        rw [List.countP_append, List.countP_cons, is] at big
        rw [List.countP_append, List.countP_cons] at nonzero
        have plainA := all_plain (W := A) (by simp at big; omega) (by omega)
        have plainB := all_plain (W := B) (by simp at big; omega) (by omega)
        have zero : c.code ≠ 48 := fun zero => by
          rw [zero] at wider
          exact absurd wider (by decide)
        obtain ⟨high, low, units, -, -⟩ := Unicode.utf16_of_ge (of_decide_eq_true wider) c.bound
        rw [List.flatMap_append, List.flatMap_append, served_flatMap plainA, List.append_assoc,
          List.append_cancel_left_eq, List.flatMap_cons, List.flatMap_cons, served_some zero, served_flatMap plainB,
          drawn_some, drawn_some, units] at same
        obtain ⟨first, later⟩ := List.cons.inj same
        obtain ⟨each, last⟩ := cons_eq_concat_iff.1 later
        refine .inr ⟨A, c, B, d, low, rfl, rfl, plainA, fun x inside b is => ?_, by rw [units, first], last⟩
        have narrow := (plainB x inside b is).2
        rw [← each b.code.toUInt16 (List.mem_flatMap.2 ⟨x, inside, by simp [Option.mem_def.1 is, drawn_some]⟩),
          UInt32.toNat_toUInt16, Nat.mod_eq_of_lt narrow]
  · rintro (⟨plain, rfl⟩ | ⟨A, c, B, d, low, rfl, rfl, plain, each, units, last⟩)
    · rw [served_flatMap plain]
      exact (List.append_nil _).symm
    · obtain ⟨wider, half⟩ := Unicode.utf16_pair c.bound units
      have zero : c.code ≠ 48 := fun zero => by
        rw [zero] at wider
        exact absurd wider (by decide)
      have plainB : ∀ x ∈ B, Plain x := fun x inside b is => by
        have code := each x inside b is
        refine ⟨fun zero => ?_, code ▸ low.toNat_lt⟩
        have low_zero : low = 48 := UInt16.toNat_inj.1 (by rw [← code, zero]; rfl)
        rw [low_zero] at half
        cases half
      have behind : low :: B.flatMap drawn = B.flatMap drawn ++ [low] := by
        refine cons_eq_concat_iff.2 ⟨fun u member => ?_, rfl⟩
        obtain ⟨x, inside, unit⟩ := List.mem_flatMap.1 member
        cases x with
        | none => cases unit
        | some b =>
            rw [drawn_some, List.mem_singleton] at unit
            rw [unit, ← UInt16.toNat_inj, UInt32.toNat_toUInt16, each _ inside b rfl, Nat.mod_eq_of_lt low.toNat_lt]
      rw [List.flatMap_append, List.flatMap_append, List.flatMap_cons, List.flatMap_cons, served_some zero, units,
        served_flatMap plain, served_flatMap plainB, drawn_some, drawn_some, last, List.append_assoc, List.append_assoc,
        ← behind]
      rfl

/-- The tags of the list from the left one up to below the right one. -/
def between (ops : List Op) (l r : String) : List String := (page ops).ppsTags.filter fun t => l ≤ t ∧ t < r

theorem mem_between {ops : List Op} {l r t : String} :
    t ∈ between ops l r ↔ t ∈ (page ops).ppsTags ∧ l ≤ t ∧ t < r := by simp [between]

/-- The two pieces, tag by tag. -/
theorem agree_iff (Name Batch : Type) [DecidableEq Name] {ops : List Op} {l r : String}
    (left : l ∈ (page ops).ppsTags) (right : r ∈ (page ops).ppsTags) (le : l ≤ r) :
    Agree Name Batch ops l r ↔
      ((between ops l r).map (last ops)).flatMap served =
        ((between ops l r).map (last ops)).flatMap drawn ++ drawn (last ops r) := by
  have same := same Name Batch ops
  have remembers : Pps.Remembers (ops.map Op.entry) (page ops) := Pps.remembers _
  obtain ⟨text, pieced, is⟩ := PPS.piece_eq (d := stored Name Batch ops) (same.tags ▸ remembers.sorted)
    same.fields (same.tags ▸ left) (same.tags ▸ right) le
  have served_text : decoded text = ((between ops l r).map (last ops)).flatMap served := by
    rw [← unitsOf_fields, List.flatMap_map, decoded, is, same.tags]
    rfl
  rw [Agree, pieced, Option.map_some, served_text, Pps.piece_eq remembers.sorted left right le,
    remembers.textOf_eq fun t member => (List.mem_filter.1 member).1,
    remembers.textOf_eq (by simpa using right), Option.some.injEq, List.flatMap_map, List.flatMap_map]
  simp only [lastCode_entries, List.flatMap_cons, List.flatMap_nil, List.append_nil]
  rfl

/-- A tag outside the list shows nothing. -/
theorem last_eq_none {ops : List Op} {t : String} (absent : t ∉ (page ops).ppsTags) : last ops t = none := by
  by_contra shows
  have remembers : Pps.Remembers (ops.map Op.entry) (page ops) := Pps.remembers _
  refine absent (remembers.shown t ?_)
  rw [lastCode_entries]
  exact codeOf_eq_zero.not.2 shows

/-- One letter is beyond one unit.  Its first unit happens to be the low bits of its
code; its second is every letter behind it, and the low bits of the one at the right
tag. -/
def Accident (ops : List Op) (l r : String) : Prop :=
  ∃ A m B c d low, between ops l r = A ++ m :: B ∧ last ops m = some c ∧ last ops r = some d ∧
    (∀ t ∈ A, Plain (last ops t)) ∧ (∀ t ∈ B, ∀ b ∈ last ops t, b.code.toNat = UInt16.toNat low) ∧
    utf16 c.code.toNat = [c.code.toUInt16, low] ∧ d.code.toUInt16 = low

/-- **Two pieces agree exactly if** the right tag shows nothing and what the tags from
the left one on show is of one unit and not `'0'`, or by `Accident`.  All pieces of a
history agree exactly if no tag shows anything. -/
theorem pieces_agree_iff (Name Batch : Type) [DecidableEq Name] (ops : List Op) :
    (stored Name Batch ops).tags = (page ops).ppsTags ∧
      (∀ l ∈ (page ops).ppsTags, ∀ r ∈ (page ops).ppsTags, l ≤ r →
        (Agree Name Batch ops l r ↔
          last ops r = none ∧ (∀ t, l ≤ t → t < r → Plain (last ops t)) ∨ Accident ops l r)) ∧
      ((∀ l ∈ (page ops).ppsTags, ∀ r ∈ (page ops).ppsTags, l ≤ r → Agree Name Batch ops l r) ↔
        ∀ t, last ops t = none) := by
  refine ⟨(same Name Batch ops).tags, fun l left r right le => ?_, fun agree t => ?_,
    fun nothing l left r right le => ?_⟩
  · rw [agree_iff Name Batch left right le, served_eq_drawn_iff]
    refine or_congr ⟨fun clear => ⟨clear.2, fun t low high => ?_⟩, fun clear => ⟨fun x member => ?_, clear.1⟩⟩
      ⟨fun accident => ?_, fun accident => ?_⟩
    · by_cases listed : t ∈ (page ops).ppsTags
      · exact clear.1 _ (List.mem_map_of_mem (mem_between.2 ⟨listed, low, high⟩))
      · rw [last_eq_none listed]
        exact plain_none
    · obtain ⟨t, inside, rfl⟩ := List.mem_map.1 member
      exact clear.2 t (mem_between.1 inside).2.1 (mem_between.1 inside).2.2
    · obtain ⟨A, c, B, d, low, shape, right, plain, each, units⟩ := accident
      obtain ⟨front, rest, tags, rfl, last_part⟩ := List.map_eq_append_iff.1 shape
      obtain ⟨m, back, rfl, shows, rfl⟩ := List.map_eq_cons_iff.1 last_part
      exact ⟨front, m, back, c, d, low, tags, shows, right, List.forall_mem_map.1 plain, List.forall_mem_map.1 each,
        units⟩
    · obtain ⟨A, m, B, c, d, low, tags, shows, right, plain, each, units⟩ := accident
      refine ⟨A.map (last ops), c, B.map (last ops), d, low, ?_, right, List.forall_mem_map.2 plain,
        List.forall_mem_map.2 each, units⟩
      rw [tags, List.map_append, List.map_cons, shows]
  · -- the piece from a tag to itself
    by_cases listed : t ∈ (page ops).ppsTags
    · have same := (agree_iff Name Batch listed listed le_rfl).1 (agree t listed t listed le_rfl)
      have empty : between ops t t = [] :=
        List.filter_eq_nil_iff.2 fun u _ inside =>
          have both := of_decide_eq_true inside
          lt_irrefl t (both.1.trans_lt both.2)
      rw [empty] at same
      exact drawn_eq_nil.1 same.symm
    · exact last_eq_none listed
  · refine (agree_iff Name Batch left right le).2 ((served_eq_drawn_iff _ _).2 (.inl ⟨fun x member => ?_, nothing r⟩))
    obtain ⟨t, -, rfl⟩ := List.mem_map.1 member
    rw [nothing t]
    exact plain_none

/-- The accident, with U+1D836 before U+1DC36. -/
example : Agree Unit Unit
    [.insert "0.5" ⟨0x1D836, by decide, by decide⟩, .insert "0.75" ⟨0x1DC36, by decide, by decide⟩]
    "0" "0.75" := by decide +kernel

/-- `b` typed before `a`, a `0` behind them that is deleted again, an unknown tag, and
half of a pair. -/
def typing : List Op :=
  [.insert "0.5" ⟨97, by decide, by decide⟩, .insert "0.25" ⟨98, by decide, by decide⟩,
    .insert "0.75" ⟨48, by decide, by decide⟩, .delete "0.75", .delete "0.3",
    .insert "0.5" ⟨0xD83D, by decide, by decide⟩]

theorem pieces_agree_iff_typing : Agree Unit Unit typing "0" "1" := by
  have deleted : last typing "0.75" = none := by decide +kernel
  have letters : ∀ t, ∀ c ∈ last typing t, c.code = 97 ∨ c.code = 98 ∨ c.code = 0xD83D := by
    intro t c shows
    have typed := last_mem shows
    simp only [typing, List.mem_cons, List.not_mem_nil, Op.insert.injEq, reduceCtorEq] at typed
    rcases typed with ⟨-, rfl⟩ | ⟨-, rfl⟩ | ⟨rfl, -⟩ | typed
    · exact Or.inl rfl
    · exact Or.inr (Or.inl rfl)
    · rw [deleted] at shows
      cases shows
    · simp only [false_or, or_false] at typed
      exact Or.inr (Or.inr (congrArg Letter.code typed.2))
  refine ((pieces_agree_iff Unit Unit typing).2.1 "0" (by decide +kernel) "1" (by decide +kernel)
    (by decide)).2 (.inl ⟨by decide +kernel, fun t _ _ c shows => ?_⟩)
  rcases letters t c shows with is | is | is <;> rw [is] <;> decide

/-- A typed `0` is in the list, and only the page shows it. -/
theorem zero_hidden :
    let ops : List Op := [.insert "0.5" ⟨48, by decide, by decide⟩]
    "0" ∈ (page ops).ppsTags ∧ "1" ∈ (page ops).ppsTags ∧ "0" ≤ "1" ∧
      PPS.piece (stored Unit Unit ops) "0" "1" = some "" ∧ (page ops).piece "0" "1" = some [48] ∧
      ¬ Agree Unit Unit ops "0" "1" := by
  decide +kernel

/-- A piece that ends at a visible character: the page shows it, the server does not. -/
theorem right_left_out :
    let ops : List Op := [.insert "0.5" ⟨97, by decide, by decide⟩]
    PPS.piece (stored Unit Unit ops) "0" "0.5" = some "" ∧ (page ops).piece "0" "0.5" = some [97] := by
  decide +kernel

end ColabEdit.Session
