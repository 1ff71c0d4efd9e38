/-
# ColabEdit.Browser.Precision -- how long a gap can be halved

Calls of `PPS.insert` by one client from the empty document, with `Big` numbers
for tags, ordered by value.  With `n = 1` and `i = 0` every branch of `insert`
halves the gap between the two neighbours, and `div` rounds the middle half up to
`Big.DP` places.

`precise_iff`: every call of a sequence gets a tag strictly between its
neighbours exactly if every call finds them two units of the last place apart.

Pole: `typed_out`.  Typing at the end halves one gap again and again; after 66438
characters one unit is left, and the next tag is `'1'`.
-/
import ColabEdit.Browser.Big
import ColabEdit.Browser.Intention

namespace ColabEdit.Browser

open BigNum BigTag
open ColabEdit.Theory
open Pps (Between Flagged Framed Place)

set_option autoImplicit false

/-- Numeric tags. -/
instance : BigTag Big Big where
  tag0 := .ofInt 0
  tag1 := .ofInt 1
  tag0_lt_tag1 := by decide
  big := id
  str := id

namespace Pps

/-! ## Sequences of calls -/

section Calls

variable {Tag Num : Type} [LinearOrder Tag] [BigNum Num] [BigTag Tag Num]

/-- The page after a call of `insert`; one that throws has sorted the list. -/
def called (s : Pps Tag) (index numClients : Int) (call : Nat × CharCode) : Pps Tag :=
  match s.insert index numClients call.1 call.2 with
  | some (s', _) => s'
  | none => { s with ppsTags := sort s.ppsTags }

def calledAll (s : Pps Tag) (index numClients : Int) (calls : List (Nat × CharCode)) : Pps Tag :=
  calls.foldl (fun s call => s.called index numClients call) s

/-- Every call satisfies `P` on the page it finds. -/
def EachCall (P : Pps Tag → Nat × CharCode → Prop) (index numClients : Int) (s : Pps Tag) :
    List (Nat × CharCode) → Prop
  | [] => True
  | call :: rest => P s call ∧ EachCall P index numClients (s.called index numClients call) rest

variable {P Q : Pps Tag → Nat × CharCode → Prop} {index numClients : Int} {s : Pps Tag}
  {calls : List (Nat × CharCode)}

theorem calledAll_append (calls calls' : List (Nat × CharCode)) :
    s.calledAll index numClients (calls ++ calls') =
      (s.calledAll index numClients calls).calledAll index numClients calls' := List.foldl_append

theorem eachCall_append (calls calls' : List (Nat × CharCode)) :
    EachCall P index numClients s (calls ++ calls') ↔
      EachCall P index numClients s calls ∧
        EachCall P index numClients (s.calledAll index numClients calls) calls' := by
  induction calls generalizing s with
  | nil => exact (true_and _).to_iff.symm
  | cons call rest ih =>
      rw [List.cons_append, EachCall, ih, EachCall, and_assoc]
      rfl

instance [∀ s call, Decidable (P s call)] :
    (calls : List (Nat × CharCode)) → (s : Pps Tag) → Decidable (EachCall P index numClients s calls)
  | [], _ => inferInstanceAs (Decidable True)
  | call :: rest, s =>
      have := instDecidableEachCall rest (s.called index numClients call)
      inferInstanceAs (Decidable (_ ∧ _))

end Calls

/-! ## One client -/

section Alone

variable {s : Pps Big} {pos : Nat} {l r a b : Big} {A B : List Big}

abbrev Valid (s : Pps Big) (call : Nat × CharCode) : Prop := call.1 ≤ s.visible.length

/-- The call returns a new tag, strictly between its neighbours. -/
def Lands (s : Pps Big) (call : Nat × CharCode) : Prop :=
  ∃ l r t s', s.ppsTags[call.1]? = some l ∧ s.ppsTags[call.1 + 1]? = some r ∧
    s.insert 0 1 call.1 call.2 = some (s', some t) ∧ l < t ∧ t < r ∧ t ∉ s.ppsTags

/-- The neighbours are two units of the last place apart. -/
def Apart (s : Pps Big) (call : Nat × CharCode) : Prop :=
  ∃ l r, s.ppsTags[call.1]? = some l ∧ s.ppsTags[call.1 + 1]? = some r ∧
    l.value + 2 / (10 ^ DP : ℕ) ≤ r.value

/-- Tags with at most `Big.DP` places. -/
structure Ruled (s : Pps Big) : Prop where
  framed : Framed s
  flagged : Flagged s
  grid : ∀ t ∈ s.ppsTags, OnGrid (10 ^ DP) t.value

theorem unit_pos : 0 < 10 ^ DP := Nat.pow_pos (by decide)

theorem ruled_fresh : Ruled (fresh : Pps Big) where
  framed := framed_fresh
  flagged := flagged_fresh
  grid := by
    intro t member
    rcases List.mem_cons.1 member with rfl | member
    · exact .intCast unit_pos 0
    · rw [List.mem_singleton.1 member]
      exact .intCast unit_pos 1

/-- Nothing of the gap is left out at its start. -/
theorem share_start (l x : Big) : BigNum.add l (div (times (ofInt 0) x) (ofInt 1)) = l := by
  refine Big.value_injective ?_
  change l.value + halfUp (10 ^ DP) ((0 : ℤ) * x.value / (1 : ℤ)) = l.value
  rw [Int.cast_zero, zero_mul, zero_div, halfUp_of_onGrid unit_pos .zero, add_zero]

/-- Nor at its end. -/
theorem share_stop {l r : Big} (grid : OnGrid (10 ^ DP) l.value) (grid' : OnGrid (10 ^ DP) r.value) :
    BigNum.add l (div (times (BigNum.add (ofInt 0) (ofInt 1)) (minus r l)) (ofInt 1)) = r := by
  refine Big.value_injective ?_
  change l.value + halfUp (10 ^ DP) (((0 : ℤ) + (1 : ℤ)) * (r.value - l.value) / (1 : ℤ)) = r.value
  rw [Int.cast_zero, Int.cast_one, zero_add, one_mul, div_one, halfUp_of_onGrid unit_pos (grid'.sub grid)]
  ring

/-- The bounds are the two neighbours. -/
theorem bounds_alone (ruled : Ruled s) (place : Place s pos A B l r a b) :
    s.bounds 0 1 s.ppsTags pos l r = some (l, r) := by
  obtain ⟨fl, flag_l⟩ := ruled.flagged.flag l place.left_mem
  obtain ⟨fr, flag_r⟩ := ruled.flagged.flag r place.right_mem
  have left := place.left
  have right := place.right
  have stop := share_stop (ruled.grid a place.a_mem) (ruled.grid r place.right_mem)
  have stop' := share_stop (ruled.grid l place.left_mem) (ruled.grid r place.right_mem)
  unfold firstAck at left right
  unfold bounds firstAck
  rw [place.taken, place.dropped]
  cases fl <;> cases fr <;> simp_all [share_start, BigTag.big]

/-- **What a call of one client does.** -/
theorem insert_alone (ruled : Ruled s) (valid : pos ≤ s.visible.length) (place : Place s pos A B l r a b)
    (ch : CharCode) :
    ∃ t : Big, s.insert 0 1 pos ch = some (s.push t ch false, some t) ∧
      t.value = halfUp (10 ^ DP) ((l.value + r.value) / 2) := by
  refine ⟨halfway l r, ?_, ?_⟩
  · rw [ruled.framed.insert_eq valid place.shape place.index, bounds_alone ruled place]
    rfl
  · change halfUp (10 ^ DP) ((l.value + r.value) / (2 : ℤ)) = _
    rw [Int.cast_ofNat]

theorem Ruled.push (ruled : Ruled s) {t : Big} (between : Between t) (grid : OnGrid (10 ^ DP) t.value)
    (ch : CharCode) : Ruled (s.push t ch false) where
  framed := ruled.framed.push between ch false
  flagged := ruled.flagged.push between ch false
  grid := by
    intro u member
    rcases mem_push.1 member with before | rfl
    · exact ruled.grid u before
    · exact grid

/-- One call: it lands exactly where two units are left, and then the page has one
more tag. -/
theorem call_spec (ruled : Ruled s) {call : Nat × CharCode} (valid : Valid s call) :
    (Lands s call ↔ Apart s call) ∧ (Lands s call → Ruled (s.called 0 1 call)) := by
  obtain ⟨pos, ch⟩ := call
  obtain ⟨A, B, l, r, a, b, place⟩ := exists_place ruled.framed ruled.flagged valid
  obtain ⟨t, inserted, value⟩ := insert_alone ruled valid place ch
  have at_l : s.ppsTags[pos]? = some l := place.at_left
  have at_r : s.ppsTags[pos + 1]? = some r := place.at_right
  have low : (0 : ℚ) ≤ l.value := (ruled.framed.mem_bounds place.left_mem).1
  have middle := middle_between_iff unit_pos (ruled.grid l place.left_mem) (ruled.grid r place.right_mem) low
  rw [← value] at middle
  have sorted := ruled.framed.sorted
  rw [place.shape] at sorted
  have fresh : l < t ∧ t < r → t ∉ s.ppsTags := fun ⟨above, below⟩ member => by
    rw [place.shape] at member
    rcases SortedList.not_between sorted member with le | ge
    · exact absurd above (not_lt.2 le)
    · exact absurd below (not_lt.2 ge)
  have lands : Lands s (pos, ch) ↔ l < t ∧ t < r := by
    constructor
    · rintro ⟨l', r', t', s', is_l, is_r, result, above, below, -⟩
      cases at_l.symm.trans is_l
      cases at_r.symm.trans is_r
      cases inserted.symm.trans result
      exact ⟨above, below⟩
    · exact fun inside => ⟨l, r, t, _, at_l, at_r, inserted, inside.1, inside.2, fresh inside⟩
  refine ⟨lands.trans (middle.trans ?_), fun landed => ?_⟩
  · constructor
    · exact fun room => ⟨l, r, at_l, at_r, room⟩
    · rintro ⟨l', r', is_l, is_r, room⟩
      cases at_l.symm.trans is_l
      cases at_r.symm.trans is_r
      exact room
  · obtain ⟨above, below⟩ := lands.1 landed
    have between : Between t :=
      ⟨(ruled.framed.mem_bounds place.left_mem).1.trans_lt above,
        below.trans_le (ruled.framed.mem_bounds place.right_mem).2⟩
    rw [called, inserted]
    exact ruled.push between (value ▸ halfUp_onGrid _ _) ch

theorem Ruled.lands_apart (ruled : Ruled s) {calls : List (Nat × CharCode)}
    (valid : EachCall Valid 0 1 s calls) : EachCall Lands 0 1 s calls ↔ EachCall Apart 0 1 s calls := by
  induction calls generalizing s with
  | nil => exact Iff.rfl
  | cons call rest ih =>
      obtain ⟨same, next⟩ := call_spec ruled valid.1
      constructor
      · rintro ⟨landed, later⟩
        exact ⟨same.1 landed, (ih (next landed) valid.2).1 later⟩
      · rintro ⟨apart, later⟩
        have landed := same.2 apart
        exact ⟨landed, (ih (next landed) valid.2).2 later⟩

/-- **Exactly when tags do not run out of precision.** -/
theorem precise_iff {calls : List (Nat × CharCode)} (valid : EachCall Valid 0 1 fresh calls) :
    EachCall Lands 0 1 fresh calls ↔ EachCall Apart 0 1 fresh calls :=
  ruled_fresh.lands_apart valid

/-- Two characters, the second in front of the first. -/
theorem precise_iff_two : EachCall Lands 0 1 fresh [(0, 97), (0, 98)] :=
  (precise_iff (by decide +kernel)).2
    ⟨⟨.ofInt 0, .ofInt 1, rfl, rfl, by decide +kernel⟩,
      ⟨.ofInt 0, .div (.ofInt 1) (.ofInt 2), by decide +kernel, by decide +kernel, by decide +kernel⟩, trivial⟩

/-! ## Pole -/

/-- Typing `a` at the end, `k` times. -/
def typing (k : ℕ) : List (Nat × CharCode) := (List.range k).map fun pos => (pos, 97)

/-- The units of the last gap after `k` characters at the end. -/
def left (k : ℕ) : ℕ := 10 ^ DP / 2 ^ k

theorem left_half (k : ℕ) : left k / 2 = left (k + 1) := by
  rw [left, Nat.div_div_eq_div_mul, ← pow_succ]
  rfl

/-- The page after `k` characters at the end. -/
structure Typed (k : ℕ) (s : Pps Big) : Prop where
  ruled : Ruled s
  plain : Plain s
  last : ∃ (A : List Big) (l : Big), s.ppsTags = A ++ [l, tag1] ∧ A.length = k ∧
    l.value = 1 - (left k : ℚ) / (10 ^ DP : ℕ)

theorem typed_fresh : Typed 0 (fresh : Pps Big) where
  ruled := ruled_fresh
  plain := plain_fresh
  last := by
    have ne : ((10 ^ DP : ℕ) : ℚ) ≠ 0 := by exact_mod_cast unit_pos.ne'
    refine ⟨[], tag0, rfl, rfl, ?_⟩
    rw [left, pow_zero, Nat.div_one, div_self ne, sub_self]
    rfl

theorem Typed.place {k : ℕ} (typed : Typed k s) :
    ∃ (A : List Big) (l a b : Big), Place s k A [] l tag1 a b ∧
      l.value = 1 - (left k : ℚ) / (10 ^ DP : ℕ) ∧ s.visible.length = k := by
  obtain ⟨A, l, shape, length, value⟩ := typed.last
  have visible : s.visible.length = k := by
    have lengths := congrArg List.length (typed.plain.visible_eq.symm.trans shape)
    simp only [List.length_cons, List.length_append, List.length_nil] at lengths
    omega
  obtain ⟨A', B', l', r', a, b, place⟩ := exists_place typed.ruled.framed typed.ruled.flagged visible.ge
  obtain ⟨rfl, same⟩ := List.append_inj (place.shape.symm.trans shape) (by rw [place.index, length])
  cases same
  exact ⟨A', l, a, b, place, value, visible⟩

theorem Typed.next {k : ℕ} (typed : Typed k s) (room : 2 ^ (k + 1) ≤ 10 ^ DP) :
    Valid s (k, 97) ∧ Typed (k + 1) (s.called 0 1 (k, 97)) := by
  obtain ⟨A, l, a, b, place, value, visible⟩ := typed.place
  have valid : Valid s (k, 97) := visible.ge
  have pos : (0 : ℚ) < (10 ^ DP : ℕ) := by exact_mod_cast unit_pos
  have two : (2 : ℚ) ≤ left k := by
    have enough : 2 ≤ left k := by
      rw [left, Nat.le_div_iff_mul_le (Nat.pow_pos two_pos), ← pow_succ']
      exact room
    exact_mod_cast enough
  have apart : Apart s (k, 97) := by
    refine ⟨l, tag1, place.at_left, place.at_right, ?_⟩
    have units : (2 : ℚ) / (10 ^ DP : ℕ) ≤ left k / (10 ^ DP : ℕ) := div_le_div_of_nonneg_right two pos.le
    rw [value, show (tag1 : Big).value = 1 from rfl]
    linarith
  obtain ⟨same, rule⟩ := call_spec typed.ruled valid
  have ruled := rule (same.2 apart)
  obtain ⟨t, inserted, is⟩ := insert_alone typed.ruled valid place 97
  obtain ⟨l', r', t', s', at_l, at_r, result, above, below, -⟩ := same.2 apart
  cases at_l.symm.trans place.at_left
  cases at_r.symm.trans place.at_right
  cases result.symm.trans inserted
  have between : Between t := ⟨(typed.ruled.framed.mem_bounds place.left_mem).1.trans_lt above, below⟩
  have page : s.called 0 1 (k, 97) = s.push t 97 false := by rw [called, inserted]
  rw [page] at ruled ⊢
  refine ⟨valid, ruled, typed.plain.push between (by decide) false, A ++ [l], t, ?_, by simp [place.index], ?_⟩
  · rw [push_ppsTags, push_between typed.ruled.framed.sorted place.shape above.le below.le]
    simp
  · rw [is, value, show (tag1 : Big).value = 1 from rfl,
      halfUp_middle_one unit_pos (show left k ≤ 10 ^ DP from Nat.div_le_self _ _), left_half]

theorem typing_succ (k : ℕ) : typing (k + 1) = typing k ++ [(k, 97)] := by
  simp [typing, List.range_succ]

theorem typed_after {k : ℕ} (room : 2 ^ k ≤ 10 ^ DP) :
    EachCall Valid 0 1 fresh (typing k) ∧ Typed k (fresh.calledAll 0 1 (typing k)) := by
  induction k with
  | zero => exact ⟨trivial, typed_fresh⟩
  | succ k ih =>
      obtain ⟨valid, typed⟩ := ih ((Nat.pow_le_pow_right two_pos (Nat.le_succ k)).trans room)
      obtain ⟨valid', typed'⟩ := typed.next room
      rw [typing_succ, eachCall_append, calledAll_append]
      exact ⟨⟨valid, valid', trivial⟩, typed'⟩

/-- Once a single unit is left, the next character does not land. -/
theorem Typed.stuck {k : ℕ} (typed : Typed k s) (one : left k = 1) : Valid s (k, 97) ∧ ¬ Lands s (k, 97) := by
  obtain ⟨A, l, a, b, place, value, visible⟩ := typed.place
  have valid : Valid s (k, 97) := visible.ge
  refine ⟨valid, fun landed => ?_⟩
  have pos : (0 : ℚ) < (10 ^ DP : ℕ) := by exact_mod_cast unit_pos
  obtain ⟨l', r', at_l, at_r, apart⟩ := (call_spec typed.ruled valid).1.1 landed
  cases at_l.symm.trans place.at_left
  cases at_r.symm.trans place.at_right
  rw [value, one, show (tag1 : Big).value = 1 from rfl] at apart
  have units : (2 : ℚ) / (10 ^ DP : ℕ) = 1 / (10 ^ DP : ℕ) + 1 / (10 ^ DP : ℕ) := by ring
  have unit : (0 : ℚ) < 1 / (10 ^ DP : ℕ) := by positivity
  rw [units, Nat.cast_one] at apart
  linarith

theorem out_of_units {k : ℕ} (room : 2 ^ k ≤ 10 ^ DP) (one : left k = 1) :
    EachCall Valid 0 1 fresh (typing (k + 1)) ∧ ¬ EachCall Lands 0 1 fresh (typing (k + 1)) := by
  obtain ⟨valid, typed⟩ := typed_after room
  obtain ⟨valid', fails⟩ := typed.stuck one
  rw [typing_succ, eachCall_append, eachCall_append]
  exact ⟨⟨valid, valid', trivial⟩, fun ⟨_, landed, _⟩ => fails landed⟩

/-- The 66439th character at the end of the document gets the tag `'1'`. -/
theorem typed_out : EachCall Valid 0 1 fresh (typing 66439) ∧ ¬ EachCall Lands 0 1 fresh (typing 66439) :=
  out_of_units (k := 66438) (by decide +kernel) (by decide +kernel)

end Alone

end Pps

end ColabEdit.Browser
