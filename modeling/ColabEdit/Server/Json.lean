/-
# ColabEdit.Server.Json -- a pushed object as Python sees it

`changesToBePushed` may be any JSON object.  This module gives the values that
`request.json` holds after parsing, the Python operations that `insertText` and
the Redis client apply to them (subscripts, `str`, `Connection.encode` of
`lib/redis/connection.py`), and the dispatch on the keys of the object.

`malformed_mem_iff`: the loop of `insertText` raises exactly if the value of
`'insert'` has no first and second entry, or a tag is a string that is not ASCII;
it raises before the first command of that `attach` or `hide`.
-/
import ColabEdit.Server.Router

namespace ColabEdit.Server

open ColabEdit.Theory

set_option autoImplicit false

/-- A parsed value.  A float is kept as what `str` (12 digits) and `repr` print
for it, a dict as its items in the order of its hash table. -/
inductive Json where
  | null
  | bool (b : Bool)
  | int (n : Int)
  | float (str repr : String)
  | str (s : String)
  | arr (entries : List Json)
  | obj (items : List (String × Json))

namespace Json

/-! ## Printing -/

/-- `count` hexadecimal digits, in lower case. -/
def hex (count n : Nat) : String :=
  let digits := Nat.toDigits 16 n
  .ofList (.replicate (count - digits.length) '0' ++ digits)

/-- One character in the `repr` of a `unicode`. -/
def reprChar (quote c : Char) : String :=
  if c = quote ∨ c = '\\' then "\\" ++ .singleton c
  else if c = '\t' then "\\t"
  else if c = '\n' then "\\n"
  else if c = '\r' then "\\r"
  else if 0x10000 ≤ c.toNat then "\\U" ++ hex 8 c.toNat
  else if 0x100 ≤ c.toNat then "\\u" ++ hex 4 c.toNat
  else if c.toNat < 0x20 ∨ 0x7f ≤ c.toNat then "\\x" ++ hex 2 c.toNat
  else .singleton c

def reprUnicode (s : String) : String :=
  let quote := if '\'' ∈ s.toList ∧ '"' ∉ s.toList then '"' else '\''
  "u" ++ .singleton quote ++ .join (s.toList.map (reprChar quote)) ++ .singleton quote

mutual

/-- `repr(value)` of Python 2; a number past 64 bits is a `long`. -/
def repr : Json → String
  | .null => "None"
  | .bool b => if b then "True" else "False"
  | .int n => if -2 ^ 63 ≤ n ∧ n < 2 ^ 63 then toString n else toString n ++ "L"
  | .float _ printed => printed
  | .str s => reprUnicode s
  | .arr entries => "[" ++ ", ".intercalate (reprEntries entries) ++ "]"
  | .obj items => "\x7b" ++ ", ".intercalate (reprItems items) ++ "\x7d"

def reprEntries : List Json → List String
  | [] => []
  | entry :: rest => entry.repr :: reprEntries rest

def reprItems : List (String × Json) → List String
  | [] => []
  | (key, value) :: rest => (reprUnicode key ++ ": " ++ value.repr) :: reprItems rest

end

/-- `str(value)`; `none` is the `UnicodeEncodeError` of a string that is not ASCII. -/
def toStr : Json → Option String
  | .int n => some (toString n)
  | .float printed _ => some printed
  | .str s => if s.toList.all fun c => c.toNat < 0x80 then some s else none
  | value => some value.repr

/-- What the Redis client sends for a value. -/
def encode : Json → String
  | .int n => toString n
  | .str s => s
  | value => value.repr

/-- `value[i]`; `none` is an exception: no number, `None` or `bool` has entries,
and a dict has no key `0` or `1`. -/
def item (value : Json) (i : Nat) : Option Json :=
  match value with
  | .arr entries => entries[i]?
  | .str s => s.toList[i]?.map fun c => .str (.singleton c)
  | _ => none

end Json

/-! ## The dispatch of `insertText` -/

/-- The value of `changesToBePushed`: its items, in the order of `keys()`. -/
structure PushedObject where
  items : AList fun _ : String => Json

namespace PushedObject

/-- `pps.attach(value[0], value[1])`; both entries and `str` of the first are
evaluated before anything is written. -/
def attachOf (value : Json) : DocEdit :=
  match value.item 0, value.item 1 with
  | some tag, some x =>
      match tag.toStr with
      | some tag => .attach tag x.encode
      | none => .malformed
  | _, _ => .malformed

/-- `pps.hide(value)`. -/
def hideOf (value : Json) : DocEdit :=
  match value.toStr with
  | some tag => .hide tag
  | none => .malformed

/-- One turn of the loop over the keys. -/
def dispatch (key : String) (value : Json) : Option DocEdit :=
  if key = "insert" then some (attachOf value)
  else if key = "delete" then some (hideOf value)
  else none

instance : Changes PushedObject where
  edits := fun object => object.items.entries.filterMap fun e => dispatch e.1 e.2

/-- The value cannot be attached. -/
def Unattachable (value : Json) : Prop :=
  value.item 0 = none ∨ value.item 1 = none ∨ ∃ tag, value.item 0 = some tag ∧ tag.toStr = none

theorem attachOf_malformed_iff {value : Json} : attachOf value = .malformed ↔ Unattachable value := by
  unfold attachOf Unattachable
  cases value.item 0 with
  | none => simp
  | some tag =>
      cases value.item 1 with
      | none => simp
      | some x => cases printed : tag.toStr <;> simp [printed]

theorem hideOf_malformed_iff {value : Json} : hideOf value = .malformed ↔ value.toStr = none := by
  unfold hideOf
  cases value.toStr <;> simp

theorem dispatch_malformed_iff {key : String} {value : Json} :
    dispatch key value = some .malformed ↔
      key = "insert" ∧ Unattachable value ∨ key = "delete" ∧ value.toStr = none := by
  unfold dispatch
  by_cases insert : key = "insert"
  · subst insert
    simp [attachOf_malformed_iff]
  by_cases delete : key = "delete"
  · subst delete
    simp [hideOf_malformed_iff]
  · simp [insert, delete]

/-- **The loop raises exactly at these entries.** -/
theorem malformed_mem_iff {object : PushedObject} :
    .malformed ∈ Changes.edits object ↔
      (∃ value, object.items.lookup "insert" = some value ∧ Unattachable value) ∨
        ∃ value, object.items.lookup "delete" = some value ∧ value.toStr = none := by
  have entry : ∀ key value, (⟨key, value⟩ : Sigma fun _ : String => Json) ∈ object.items.entries ↔
      object.items.lookup key = some value := fun key value => AList.mem_lookup_iff.symm
  simp only [Changes.edits, List.mem_filterMap, dispatch_malformed_iff]
  constructor
  · rintro ⟨⟨key, value⟩, member, ⟨rfl, malformed⟩ | ⟨rfl, malformed⟩⟩
    · exact Or.inl ⟨value, (entry _ _).1 member, malformed⟩
    · exact Or.inr ⟨value, (entry _ _).1 member, malformed⟩
  · rintro (⟨value, found, malformed⟩ | ⟨value, found, malformed⟩)
    · exact ⟨_, (entry _ _).2 found, Or.inl ⟨rfl, malformed⟩⟩
    · exact ⟨_, (entry _ _).2 found, Or.inr ⟨rfl, malformed⟩⟩

end PushedObject

end ColabEdit.Server
