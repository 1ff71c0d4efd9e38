/-
# ColabEdit.Browser.Pps -- the tag list of `colab.js`

The document of one browser page: `ppsTags`, the array of position tags that is
kept sorted, and the two maps `pps` (tag to character code, `0` for a hidden
tag) and `ppsAck` (tag to acknowledgement flag).  The functions below are those
of the object `PPS` in `app/static/js/colab.js`, lines 130 to 296, except for
the calls `attach` makes to the editor (`ColabEdit.Browser.Editor`).

A tag is a decimal string in the source and a `Big` number while `insert` and
`add` compute with it.  `BigTag` abstracts both representations, with the
operations the code calls, so that one model serves the string tags with
rounded division and the exact rational tags.

`ppsTags` is sorted again at the head of every function of the source; the
functions that change the list leave it sorted, and the others here sort their
own copy.
-/
import Mathlib.Algebra.Order.Ring.Rat
import Mathlib.Data.List.Sort
import Mathlib.Data.UInt
import Mathlib.Logic.Function.Basic

namespace ColabEdit.Browser

set_option autoImplicit false

/-- `event.charCode`, and the values of `pps`; `0` marks a hidden tag. -/
abbrev CharCode := UInt32

/-- A JavaScript string: its UTF-16 units. -/
abbrev Text := List UInt16

/-- `String.fromCharCode` keeps the low sixteen bits. -/
def fromCharCode (ch : CharCode) : UInt16 := ch.toUInt16

/-- `Big` numbers: `ofInt` is `Big(n)`, the rest are the methods of `big.js` that
`insert` and `add` call. -/
class BigNum (Num : Type) where
  ofInt : Int → Num
  add : Num → Num → Num
  minus : Num → Num → Num
  times : Num → Num → Num
  div : Num → Num → Num

/-- Tags and the numbers `Big` makes of them: `big` is `Big(tag)`, `str` is
`x + ''`.  The order is the one `ppsTags.sort()` sorts by; under each of them the
tag `'0'` comes before the tag `'1'`. -/
class BigTag (Tag : Type) (Num : outParam Type) [LinearOrder Tag] where
  /-- The tag `'0'`. -/
  tag0 : Tag
  /-- The tag `'1'`. -/
  tag1 : Tag
  tag0_lt_tag1 : tag0 < tag1
  big : Tag → Num
  str : Num → Tag

/-- `ppsTags`, `pps` and `ppsAck`. -/
structure Pps (Tag : Type) where
  ppsTags : List Tag
  pps : Tag → Option CharCode
  ppsAck : Tag → Option Bool

namespace Pps

open BigNum BigTag

variable {Tag Num : Type} [LinearOrder Tag] [BigNum Num] [BigTag Tag Num]

/-- The page as it is loaded: `'0'` and `'1'`, both hidden and acknowledged. -/
def fresh : Pps Tag where
  ppsTags := [tag0, tag1]
  pps := fun t => if t = tag0 ∨ t = tag1 then some 0 else none
  ppsAck := fun t => if t = tag0 ∨ t = tag1 then some true else none

/-- `ppsTags.sort()`. -/
def sort (tags : List Tag) : List Tag := tags.insertionSort (· ≤ ·)

/-- `pps.get(tag) != 0`.  A tag without an entry reads `undefined`, which is
different from `0`. -/
def shown (s : Pps Tag) (tag : Tag) : Bool := s.pps tag != some 0

/-- `String.fromCharCode(pps.get(tag))`. -/
def char (s : Pps Tag) (tag : Tag) : UInt16 := fromCharCode ((s.pps tag).getD 0)

def hide (s : Pps Tag) (tag : Tag) : Pps Tag :=
  { s with
    pps := Function.update s.pps tag (some 0)
    ppsAck := Function.update s.ppsAck tag (some false) }

/-- The loop of `index`. -/
def indexFrom (s : Pps Tag) (tag : Tag) : List Tag → Nat → Int
  | [], _ => -1
  | t :: rest, pos =>
      if t = tag then pos else indexFrom s tag rest (if s.shown t then pos + 1 else pos)

def index (s : Pps Tag) (tag : Tag) : Int := s.indexFrom tag (sort s.ppsTags) 0

/-- The loop `delete` and `insert` share: count visible tags until the count is
`pos`.  Returns the count it ended with and `found`. -/
def countTo (s : Pps Tag) (pos : Nat) : List Tag → Nat → Nat × Bool
  | [], count => (count, false)
  | t :: rest, count =>
      let count := if s.shown t then count + 1 else count
      if count = pos then (count, true) else countTo s pos rest count

/-- `deleteTag = ppsTags[count]`: the number of visible characters is used as an
index into the whole list. -/
def delete (s : Pps Tag) (pos : Nat) : Option Tag :=
  match s.countTo pos (sort s.ppsTags) 0 with
  | (count, true) => (sort s.ppsTags)[count]?
  | (_, false) => none

/-- `attach` on the tag list; `Editor.attach` adds what it does on the screen. -/
def attach (s : Pps Tag) (tag : Tag) (ch : CharCode) : Pps Tag :=
  let s := { s with ppsAck := Function.update s.ppsAck tag (some true) }
  if ch ≠ 0 then
    { s with
      pps := Function.update s.pps tag (some ch)
      ppsTags := sort (s.ppsTags ++ [tag]) }
  else { s with pps := Function.update s.pps tag (some ch) }

def add (s : Pps Tag) (tagx tagy : Tag) (ch : CharCode) : Pps Tag × Tag :=
  let tag := str (div (BigNum.add (big tagx) (big tagy)) (ofInt 2))
  ({ pps := Function.update s.pps tag (some ch)
     ppsTags := sort (s.ppsTags ++ [tag])
     ppsAck := Function.update s.ppsAck tag (some false) }, tag)

/-- The first tag of `tags` that is acknowledged. -/
def firstAck (s : Pps Tag) (tags : List Tag) : Option Tag :=
  tags.find? fun t => s.ppsAck t = some true

/-- The values `ltag` and `rtag` that `insert` computes from the neighbours `l`
and `r` at `lB` and `lB + 1`.  `none` is the `TypeError` of a search that found
no acknowledged tag. -/
def bounds (s : Pps Tag) (index numClients : Int) (tags : List Tag) (lB : Nat) (l r : Tag) :
    Option (Num × Num) :=
  if s.ppsAck l = some false ∧ s.ppsAck r = some true then
    (s.firstAck (tags.take lB).reverse).map fun lAck =>
      (big l, BigNum.add (big lAck)
        (div (times (BigNum.add (ofInt index) (ofInt 1)) (minus (big r) (big lAck)))
          (ofInt numClients)))
  else if s.ppsAck l = some true ∧ s.ppsAck r = some false then
    (s.firstAck (tags.drop (lB + 1 + 1))).map fun rAck =>
      (BigNum.add (big l)
        (div (times (ofInt index) (minus (big rAck) (big l))) (ofInt numClients)), big r)
  else if s.ppsAck l = some true ∧ s.ppsAck r = some true then
    some
      (BigNum.add (big l) (div (times (ofInt index) (minus (big r) (big l))) (ofInt numClients)),
        BigNum.add (big l)
          (div (times (BigNum.add (ofInt index) (ofInt 1)) (minus (big r) (big l)))
            (ofInt numClients)))
  else
    -- both unacknowledged, or the empty last branch of the source: the two
    -- tags themselves, as assigned before the first test
    some (big l, big r)

/-- `insert` with `userPosition = index` and `userCount = numClients`.  The outer
`none` is an exception, the inner `none` the `null` of a position not found. -/
def insert (s : Pps Tag) (index numClients : Int) (pos : Nat) (ch : CharCode) :
    Option (Pps Tag × Option Tag) :=
  let s := { s with ppsTags := sort s.ppsTags }
  let (lowB, found) := s.countTo pos s.ppsTags 0
  match s.ppsTags[lowB]?, s.ppsTags[lowB + 1]? with
  | some l, some r =>
      match s.bounds index numClients s.ppsTags lowB l r with
      | none => none
      | some (ltag, rtag) =>
          if found then
            let (s, tag) := s.add (str ltag) (str rtag) ch
            some (s, some tag)
          else some (s, none)
  | _, _ =>
      -- `Big(undefined)` is no number: `PPS.add` would throw on it
      if found then none else some (s, none)

/-- The text from `lb` to `ub`, both inclusive; `none` when one is not in the list. -/
def piece (s : Pps Tag) (lb ub : Tag) : Option Text :=
  let tags := sort s.ppsTags
  match tags.idxOf? lb, tags.idxOf? ub with
  | some lP, some rP =>
      some ((((tags.take (rP + 1)).drop lP).filter s.shown).map s.char)
  | _, _ => none

/-- The whole document, `PPS.piece('0', '1')`. -/
def text (s : Pps Tag) : Option Text := s.piece tag0 tag1

end Pps

/-- Exact rational arithmetic in place of `Big`. -/
instance : BigNum ℚ where
  ofInt := fun n => n
  add := (· + ·)
  minus := (· - ·)
  times := (· * ·)
  div := (· / ·)

/-- Exact rational tags, ordered by value. -/
instance : BigTag ℚ ℚ where
  tag0 := 0
  tag1 := 1
  tag0_lt_tag1 := zero_lt_one
  big := id
  str := id

end ColabEdit.Browser
