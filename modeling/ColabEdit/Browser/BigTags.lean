/-
# ColabEdit.Browser.BigTags -- `PPS` on digit arrays

`PPS.insert` and `PPS.add` compute a tag with `big.js` and write it into a string.
`insert` and `add` are the two on digit arrays, with everything that throws: a
string that is no number, a division by zero clients, a search that finds no
acknowledged tag.  The rest of the development computes with exact decimals
(`ColabEdit.Browser.Big`), rounded in `div`.

`insert_eq`, `add_eq`: on a list of numbers, with some clients, the two give the
same tag list, the same maps and the same tag, or both throw.  `calledAll_eq` is a
run of calls.
-/
import ColabEdit.Browser.BigStrings
import ColabEdit.Browser.Keys
import ColabEdit.Browser.Precision

namespace ColabEdit.Browser

open ColabEdit.Theory
open Digits (fraction digit)

set_option autoImplicit false

namespace BigJs

/-- `Big(n)` of an integer: its decimal string is parsed. -/
def ofInt (n : ℤ) : Except String BigJs := parse (.ofList (Big.intChars n))

/-- `low.add(k.times(high.minus(low)).div(numClients))` -/
def share (low k high numClients : BigJs) : Except String BigJs := do
  return plus low (← div DP RM (times k (minus high low)) numClients)

/-- `PPS.add`. -/
def add (s : Pps String) (tagx tagy : String) (ch : CharCode) : Except String (Pps String × String) := do
  let tagx ← parse tagx
  let tagy ← parse tagy
  let tag := toString (← div DP RM (plus tagx tagy) (← ofInt 2))
  return ({ pps := Function.update s.pps tag (some ch)
            ppsTags := Pps.sort (s.ppsTags ++ [tag])
            ppsAck := Function.update s.ppsAck tag (some false) }, tag)

/-- `ltag` and `rtag`.  A search without a result leaves `lAck` or `rAck`
`undefined`, and its method is called. -/
def bounds (s : Pps String) (index numClients : BigJs) (tags : List String) (lB : Nat) (l r : String) :
    Except String (BigJs × BigJs) := do
  let ltag ← parse l
  let rtag ← parse r
  if s.ppsAck l = some false ∧ s.ppsAck r = some true then
    match s.firstAck (tags.take lB).reverse with
    | some left =>
        let lAck ← parse left
        return (ltag, ← share lAck (plus index (← ofInt 1)) rtag numClients)
    | none => throw "TypeError"
  else if s.ppsAck l = some true ∧ s.ppsAck r = some false then
    match s.firstAck (tags.drop (lB + 1 + 1)) with
    | some right =>
        let rAck ← parse right
        return (← share ltag index rAck numClients, rtag)
    | none => throw "TypeError"
  else if s.ppsAck l = some true ∧ s.ppsAck r = some true then
    return (← share ltag index rtag numClients,
      ← share ltag (plus index (← ofInt 1)) rtag numClients)
  else return (ltag, rtag)

/-- `PPS.insert`. -/
def insert (s : Pps String) (index numClients : Int) (pos : Nat) (ch : CharCode) :
    Except String (Pps String × Option String) := do
  let index ← ofInt index
  let numClients ← ofInt numClients
  let s := { s with ppsTags := Pps.sort s.ppsTags }
  let (lowB, found) := s.countTo pos s.ppsTags 0
  match s.ppsTags[lowB]?, s.ppsTags[lowB + 1]? with
  | some l, some r =>
      let (ltag, rtag) ← bounds s index numClients s.ppsTags lowB l r
      if found then
        let (s, tag) ← add s (toString ltag) (toString rtag) ch
        return (s, some tag)
      else return (s, none)
  | some l, none =>
      -- `Big(undefined)` is a new constructor, and its text no number
      let _ ← parse l
      if found then throw "NaN" else return (s, none)
  | none, _ => if found then throw "NaN" else return (s, none)

@[simp] theorem ok_bind {α β : Type} (x : α) (f : α → Except String β) : (Except.ok x >>= f) = f x := rfl

/-! ## What one operation stands for -/

section Stands

variable {x y : BigJs} {X Y : Big}

theorem Stands.add (stands : Stands x X) (stands' : Stands y Y) : Stands (plus x y) (X.add Y) := by
  obtain ⟨canonical, value⟩ := plus_spec stands.canonical stands'.canonical
  exact ⟨canonical, by rw [value, stands.value, stands'.value]; rfl⟩

theorem Stands.sub (stands : Stands x X) (stands' : Stands y Y) : Stands (minus x y) (X.minus Y) := by
  obtain ⟨canonical, value⟩ := minus_spec stands.canonical stands'.canonical
  exact ⟨canonical, by rw [value, stands.value, stands'.value]; rfl⟩

theorem Stands.mul (stands : Stands x X) (stands' : Stands y Y) : Stands (times x y) (X.times Y) := by
  obtain ⟨canonical, value⟩ := times_spec stands.canonical stands'.canonical
  exact ⟨canonical, by rw [value, stands.value, stands'.value]; rfl⟩

theorem Stands.div (stands : Stands x X) (stands' : Stands y Y) (some' : Y.value ≠ 0) :
    ∃ z, BigJs.div DP RM x y = .ok z ∧ Stands z (X.div Y) := by
  have places : DP ≤ MAX_DP := by decide
  obtain ⟨z, is, canonical, value⟩ := div_spec stands.canonical stands'.canonical places
    (show mode RM = some .halfUp from rfl) (stands'.value ▸ some')
  refine ⟨z, is, canonical, ?_⟩
  show z.value = halfUp (10 ^ DP) (X.value / Y.value)
  rw [value, Mode.round_halfUp, stands.value, stands'.value]

theorem written_toDigits (n : ℕ) : Big.Written n (Nat.toDigits 10 n) := by
  have written := Big.Written.intro (q := n) (Nat.toDigits 10 n) [] [] 0 Nat.toDigits_ne_nil
    (by rw [List.append_nil]; exact .toDigits n) rfl (by
      rw [List.append_nil, add_zero, zpow_natCast, Digits.fraction_eq, Nat.ofDigitChars_ten_toDigits]
      exact div_mul_cancel₀ _ (by positivity))
  rwa [Big.pointed, if_pos rfl, List.append_nil] at written

theorem stands_ofInt (n : ℤ) : ∃ x, ofInt n = .ok x ∧ Stands x (.ofInt n) := by
  obtain ⟨X, read, value⟩ : ∃ X, Big.parse (.ofList (Big.intChars n)) = some X ∧ X.value = n := by
    unfold Big.parse
    rw [String.toList_ofList]
    cases n with
    | ofNat n =>
        obtain ⟨X, is, value⟩ := (written_toDigits n).read false
        refine ⟨X, ?_, by rw [value]; rfl⟩
        rw [Big.intChars]
        split
        · rename_i rest shape
          have := Digits.All.toDigits n '-' (by rw [shape]; simp)
          exact absurd this (by decide)
        · exact is
    | negSucc n =>
        obtain ⟨X, is, value⟩ := (written_toDigits (n + 1)).read true
        exact ⟨X, is, by rw [value, Int.cast_negSucc]; rfl⟩
  rcases parse_spec (.ofList (Big.intChars n)) with ⟨x, Y, is, read', stands⟩ | ⟨-, unread⟩
  · rw [read] at read'
    obtain rfl := Option.some.inj read'
    exact ⟨x, is, stands.canonical, stands.value.trans value⟩
  · rw [read] at unread
    cases unread

/-- A tag that is a number. -/
theorem stands_big {tag : String} (numeric : (Big.parse tag).isSome) :
    ∃ x, parse tag = .ok x ∧ Stands x (BigTag.big tag : Big) := by
  rcases parse_spec tag with ⟨x, X, is, read, stands⟩ | ⟨-, unread⟩
  · refine ⟨x, is, ?_⟩
    show Stands x ((Big.parse tag).getD (.ofInt 0))
    rwa [read]
  · rw [unread] at numeric
    cases numeric

theorem Stands.numeric (stands : Stands x X) : (Big.parse x.toString).isSome := by
  rw [stands.toString_eq, Big.parse_toString]
  rfl

theorem Stands.share {low k high n : BigJs} {Low K High N : Big} (stands : Stands low Low) (stands_k : Stands k K)
    (stands' : Stands high High) (stands_n : Stands n N) (some : N.value ≠ 0) :
    ∃ z, share low k high n = .ok z ∧ Stands z (Low.add ((K.times (High.minus Low)).div N)) := by
  obtain ⟨q, is, quotient⟩ := (stands_k.mul (stands'.sub stands)).div stands_n some
  refine ⟨_, ?_, stands.add quotient⟩
  rw [BigJs.share, is]
  rfl

end Stands

/-! ## `PPS` -/

section Pps

variable {s : Pps String}

/-- **`PPS.add` of two numbers makes the tag that exact decimals give.** -/
theorem add_eq (s : Pps String) {tagx tagy : String} (numeric : (Big.parse tagx).isSome)
    (numeric' : (Big.parse tagy).isSome) (ch : CharCode) : add s tagx tagy ch = .ok (s.add tagx tagy ch) := by
  obtain ⟨x, read, stands⟩ := stands_big numeric
  obtain ⟨y, read', stands'⟩ := stands_big numeric'
  obtain ⟨two, made, stands_two⟩ := stands_ofInt 2
  obtain ⟨z, divided, quotient⟩ := (stands.add stands').div stands_two (by norm_num [Big.ofInt])
  have same : z.toString = BigTag.str (BigNum.div (BigNum.add (BigTag.big tagx : Big) (BigTag.big tagy))
      (BigNum.ofInt 2)) := quotient.toString_eq
  unfold add Pps.add
  rw [read, read', made, ok_bind, ok_bind, ok_bind, divided, ← same]
  rfl

/-- Two pairs of bounds, or an exception on both sides. -/
theorem bounds_eq (s : Pps String) {index numClients : ℤ} {i n : BigJs} (stands_i : Stands i (.ofInt index))
    (stands_n : Stands n (.ofInt numClients)) (some : numClients ≠ 0) {tags : List String}
    (numeric : ∀ t ∈ tags, (Big.parse t).isSome) (lB : Nat) {l r : String} (left : l ∈ tags) (right : r ∈ tags) :
    Option.Rel (fun b B => Stands b.1 B.1 ∧ Stands b.2 B.2) (bounds s i n tags lB l r).toOption
      (s.bounds index numClients tags lB l r) := by
  have divides : (Big.ofInt numClients).value ≠ 0 := by
    show (numClients : ℚ) ≠ 0
    exact_mod_cast some
  obtain ⟨one, made, stands_one⟩ := stands_ofInt 1
  have next := stands_i.add stands_one
  obtain ⟨x, read, stands⟩ := stands_big (numeric l left)
  obtain ⟨y, read', stands'⟩ := stands_big (numeric r right)
  unfold bounds Pps.bounds
  rw [read, read', made, ok_bind, ok_bind]
  split
  · generalize found : s.firstAck (tags.take lB).reverse = first
    cases first with
    | none => exact .none
    | some t =>
        have member := List.mem_of_mem_take (List.mem_reverse.1 (List.mem_of_find?_eq_some found))
        obtain ⟨a, read'', stands''⟩ := stands_big (numeric t member)
        obtain ⟨b, is, bound⟩ := stands''.share next stands' stands_n divides
        dsimp only
        rw [read'', ok_bind, ok_bind, is]
        exact .some ⟨stands, bound⟩
  · split
    · generalize found : s.firstAck (tags.drop (lB + 1 + 1)) = first
      cases first with
      | none => exact .none
      | some t =>
          obtain ⟨a, read'', stands''⟩ := stands_big (numeric t (List.mem_of_mem_drop (List.mem_of_find?_eq_some found)))
          obtain ⟨b, is, bound⟩ := stands.share stands_i stands'' stands_n divides
          dsimp only
          rw [read'', ok_bind, is]
          exact .some ⟨bound, stands'⟩
    · split
      · obtain ⟨b, is, bound⟩ := stands.share stands_i stands' stands_n divides
        obtain ⟨b', is', bound'⟩ := stands.share next stands' stands_n divides
        rw [is, ok_bind, ok_bind, is']
        exact .some ⟨bound, bound'⟩
      · exact .some ⟨stands, stands'⟩

/-- Every tag of the list is a number. -/
def Numeric (s : Pps String) : Prop := ∀ t ∈ s.ppsTags, (Big.parse t).isSome

/-- **`PPS.insert` on digit arrays is `PPS.insert` on exact decimals.** -/
theorem insert_eq (numeric : Numeric s) {numClients : ℤ} (some' : numClients ≠ 0) (index : ℤ) (pos : Nat)
    (ch : CharCode) : (insert s index numClients pos ch).toOption = s.insert index numClients pos ch := by
  obtain ⟨i, made, stands_i⟩ := stands_ofInt index
  obtain ⟨n, made', stands_n⟩ := stands_ofInt numClients
  have sorted : ∀ t ∈ Pps.sort s.ppsTags, (Big.parse t).isSome := fun t member =>
    numeric t ((List.mem_insertionSort _).1 member)
  unfold insert Pps.insert
  rw [made, made', ok_bind, ok_bind]
  dsimp only
  generalize ({ ppsTags := Pps.sort s.ppsTags, pps := s.pps, ppsAck := s.ppsAck } : Pps String).countTo pos
    (Pps.sort s.ppsTags) 0 = counted
  obtain ⟨lowB, found⟩ := counted
  dsimp only
  cases left : (Pps.sort s.ppsTags)[lowB]? with
  | none => cases found <;> rfl
  | some l =>
      have l_mem := List.mem_of_getElem? left
      cases right : (Pps.sort s.ppsTags)[lowB + 1]? with
      | none =>
          obtain ⟨x, read, -⟩ := stands_big (sorted l l_mem)
          dsimp only
          rw [read, ok_bind]
          cases found <;> rfl
      | some r =>
          have stand := bounds_eq ⟨Pps.sort s.ppsTags, s.pps, s.ppsAck⟩ stands_i stands_n some' sorted lowB l_mem
            (List.mem_of_getElem? right)
          dsimp only
          generalize (Pps.bounds ⟨Pps.sort s.ppsTags, s.pps, s.ppsAck⟩ index numClients (Pps.sort s.ppsTags) lowB l r :
            Option (Big × Big)) = B at stand ⊢
          generalize bounds ⟨Pps.sort s.ppsTags, s.pps, s.ppsAck⟩ i n (Pps.sort s.ppsTags) lowB l r = b at stand ⊢
          cases b with
          | error => cases stand; rfl
          | ok b =>
              cases stand with
              | some pair =>
                  obtain ⟨stands, stands'⟩ := pair
                  cases found with
                  | false => rfl
                  | true =>
                      rw [ok_bind, if_pos rfl, add_eq _ stands.numeric stands'.numeric ch, stands.toString_eq, stands'.toString_eq]
                      rfl

theorem numeric_fresh : Numeric Pps.fresh := by
  intro t member
  rcases List.mem_pair.1 (show t ∈ ["0", "1"] from member) with rfl | rfl
  · decide +kernel
  · decide +kernel

theorem number_numeric {t : String} (number : IsNumber t) : (Big.parse t).isSome := by
  obtain ⟨X, rfl⟩ := number
  rw [Big.parse_toString]
  rfl

/-! ## Runs of calls -/

/-- A position that is not found. -/
theorem insert_none {s s' : Pps String} {index numClients : Int} {pos : Nat} {ch : CharCode}
    (inserted : s.insert index numClients pos ch = some (s', none)) : s'.ppsTags = Pps.sort s.ppsTags := by
  simp only [Pps.insert] at inserted
  split at inserted
  · split at inserted
    · cases inserted
    · split at inserted
      · cases inserted
      · cases inserted
        rfl
  · split at inserted
    · cases inserted
    · cases inserted
      rfl

/-- The page after a call of `insert`; one that throws has sorted the list. -/
def called (s : Pps String) (index numClients : Int) (call : Nat × CharCode) : Pps String :=
  match insert s index numClients call.1 call.2 with
  | .ok (s', _) => s'
  | .error _ => { s with ppsTags := Pps.sort s.ppsTags }

/-- A run of calls. -/
def calledAll (s : Pps String) (index numClients : Int) (calls : List (Nat × CharCode)) : Pps String :=
  calls.foldl (fun s call => called s index numClients call) s

theorem called_eq (numeric : Numeric s) {numClients : ℤ} (some : numClients ≠ 0) (index : ℤ)
    (call : Nat × CharCode) :
    called s index numClients call = s.called index numClients call ∧
      Numeric (s.called index numClients call) := by
  have same := insert_eq numeric some index call.1 call.2
  unfold called Pps.called
  generalize insert s index numClients call.1 call.2 = result at same ⊢
  cases result with
  | error =>
      rw [← same]
      exact ⟨rfl, fun t member => numeric t ((List.mem_insertionSort _).1 member)⟩
  | ok result =>
      obtain ⟨s', tag⟩ := result
      rw [← same]
      refine ⟨rfl, ?_⟩
      cases tag with
      | none =>
          have kept := insert_none same.symm
          exact fun t member => numeric t ((List.mem_insertionSort _).1 (kept ▸ member))
      | some tag =>
          obtain ⟨number, listed⟩ := Pps.insert_written same.symm
          intro t member
          rcases listed t member with old | rfl
          · exact numeric t old
          · exact number_numeric number

/-- **Every run of calls.** -/
theorem calledAll_eq (numeric : Numeric s) {numClients : ℤ} (some : numClients ≠ 0) (index : ℤ)
    (calls : List (Nat × CharCode)) :
    calledAll s index numClients calls = s.calledAll index numClients calls := by
  induction calls generalizing s with
  | nil => rfl
  | cons call rest ih =>
      obtain ⟨same, numeric'⟩ := called_eq numeric some index call
      unfold calledAll Pps.calledAll at ih ⊢
      rw [List.foldl_cons, List.foldl_cons, same, ih numeric']

/-- Two calls on the page as it is loaded. -/
theorem calledAll_eq_fresh :
    calledAll Pps.fresh 0 2 [(0, 97), (1, 98)] = (Pps.fresh : Pps String).calledAll 0 2 [(0, 97), (1, 98)] :=
  calledAll_eq numeric_fresh (by decide) 0 _

end Pps

end BigJs

end ColabEdit.Browser
