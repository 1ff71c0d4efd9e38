/-
# ColabEdit.Server.Redis -- the Redis keys of the server and their commands

The typed contents of the keys that `app/model/user_order.py` and
`app/model/pps.py` use, and the Redis commands that `hot_redis` sends for the
operations on them.  A command is atomic; everything between two commands runs
in the web process.

The hash types of `hot_redis` send one command for each operation: `d[k]` is
`HGET`, `d[k] = v` is `HSET`, `len(d)` is `HLEN`, `d.keys()` is `HKEYS`,
`d.items()` is `HGETALL`, `k in d` is `HEXISTS`; `Int.value` is `GET` and `SET`.
`hot_redis.transaction()` swaps the client of the thread, which an object built
with `client=client` does not read (`Base._dispatch`), so it groups nothing.

The md5 names of the keys of the document are left out: each is one key.
-/
import Mathlib.Algebra.Order.Group.Nat
import Mathlib.Data.List.AList
import Mathlib.Data.List.Sort
import Mathlib.Data.String.Basic

namespace ColabEdit.Server

set_option autoImplicit false

/-- A Redis hash. -/
abbrev Hash (K V : Type) := AList fun _ : K => V

theorem Hash.mem_keys_insert {K V : Type} [DecidableEq K] {h : Hash K V} {k k' : K} {v : V} :
    k' ∈ (h.insert k v).keys ↔ k' = k ∨ k' ∈ h.keys := by
  rw [← AList.mem_keys, AList.mem_insert, AList.mem_keys]

theorem Hash.exists_lookup {K V : Type} [DecidableEq K] {h : Hash K V} {k : K} (member : k ∈ h.keys) :
    ∃ v, h.lookup k = some v :=
  Option.isSome_iff_exists.1 (AList.lookup_isSome.2 (AList.mem_keys.2 member))

/-- A write changes nothing exactly if it writes what is there. -/
theorem Hash.lookup_insert_same_iff {K V : Type} [DecidableEq K] {h : Hash K V} {k : K} {v : V} :
    (∀ k', (h.insert k v).lookup k' = h.lookup k') ↔ h.lookup k = some v := by
  constructor
  · intro same
    rw [← same k, AList.lookup_insert]
  · intro found k'
    by_cases here : k' = k
    · rw [here, AList.lookup_insert, found]
    · rw [AList.lookup_insert_ne here]

/-- The values `YES` and `NO` of the hash `persist`. -/
inductive Persist where
  | yes
  | no
  deriving DecidableEq

/-- The four keys of the server's own document (`app/model/pps.py`). -/
structure DocStore where
  keys : List String
  pps : Hash String String
  tags : List String
  persist : Hash String Persist

/-- The keys of `app/model/user_order.py`, and the document. -/
structure Redis (Name Batch : Type) where
  users : Hash Name Nat
  /-- The string at `usersID`, a decimal number; `none` while it is not set. -/
  id : Option Nat
  changes : Hash Nat Batch
  userChanges : Hash Name (List Char)
  doc : DocStore

/-- The commands on the keys of the document. -/
inductive DocCmd where
  | lrangeKeys
  | rpushKeys (key : String)
  | hsetPps (tag x : String)
  | hexistsPps (tag : String)
  | rpushTags (tag : String)
  | sortTags
  | hsetPersist (tag : String) (value : Persist)

/-- The commands of the handlers.  `allocate` is no Redis command: it stands for
a `get_change_id` that runs as one. -/
inductive Cmd (Name Batch : Type) where
  | hlenUsers
  | hkeysUsers
  | hgetallUsers
  | hgetUsers (user : Name)
  | hsetUsers (user : Name) (position : Nat)
  | getId
  | setId (value : Nat)
  | hkeysChanges
  | hgetChanges (id : Nat)
  | hsetChanges (id : Nat) (batch : Batch)
  | hgetUserChanges (user : Name)
  | hsetUserChanges (user : Name) (ids : List Char)
  | doc (c : DocCmd)
  | allocate

@[reducible] def DocCmd.Reply : DocCmd → Type
  | .lrangeKeys => List String
  | .hexistsPps _ => Bool
  | _ => Unit

@[reducible] def Cmd.Reply {Name Batch : Type} : Cmd Name Batch → Type
  | .hlenUsers => Nat
  | .hkeysUsers => List Name
  | .hgetallUsers => List (Name × Nat)
  | .hgetUsers _ => Option Nat
  | .hsetUsers _ _ => Unit
  | .getId => Option Nat
  | .setId _ => Unit
  | .hkeysChanges => List Nat
  | .hgetChanges _ => Option Batch
  | .hsetChanges _ _ => Unit
  | .hgetUserChanges _ => Option (List Char)
  | .hsetUserChanges _ _ => Unit
  | .doc c => c.Reply
  | .allocate => Nat

/-- `int(float(s))` of a decimal number: a double has 53 bits of precision and a
tie goes to the even neighbour. -/
def floatInt (n : Nat) : Nat :=
  if n ≤ 2 ^ 53 then n
  else
    let unit := 2 ^ (Nat.log2 n - 52)
    let q := n / unit
    let rem := n % unit
    if 2 * rem < unit ∨ (2 * rem = unit ∧ q % 2 = 0) then q * unit else (q + 1) * unit

theorem floatInt_of_le {n : Nat} (le : n ≤ 2 ^ 53) : floatInt n = n := if_pos le

-- the first number that is not a double reads back as its neighbour
example : floatInt (2 ^ 53 + 1) = 2 ^ 53 := by decide

/-- Past the exact range a double is a multiple of its unit, at most one unit away. -/
theorem floatInt_multiple {n : Nat} (large : 2 ^ 53 < n) :
    ∃ q, floatInt n = q * 2 ^ (Nat.log2 n - 52) ∧ 2 ^ 52 ≤ q ∧ q ≤ 2 ^ 53 ∧
      n / 2 ^ (Nat.log2 n - 52) ≤ q := by
  have ne : n ≠ 0 := by omega
  have log : 53 ≤ Nat.log2 n := (Nat.le_log2 ne).2 large.le
  have low : 2 ^ Nat.log2 n ≤ n := Nat.log2_self_le ne
  have high : n < 2 ^ (Nat.log2 n + 1) := Nat.lt_log2_self
  have lo_split : 2 ^ Nat.log2 n = 2 ^ 52 * 2 ^ (Nat.log2 n - 52) := by
    rw [← pow_add]
    congr 1
    omega
  have hi_split : 2 ^ (Nat.log2 n + 1) = 2 ^ 53 * 2 ^ (Nat.log2 n - 52) := by
    rw [← pow_add]
    congr 1
    omega
  have positive : 0 < 2 ^ (Nat.log2 n - 52) := Nat.two_pow_pos _
  have q_low : 2 ^ 52 ≤ n / 2 ^ (Nat.log2 n - 52) :=
    (Nat.le_div_iff_mul_le positive).2 (lo_split ▸ low)
  have q_high : n / 2 ^ (Nat.log2 n - 52) < 2 ^ 53 :=
    (Nat.div_lt_iff_lt_mul positive).2 (hi_split ▸ high)
  unfold floatInt
  rw [if_neg (by omega)]
  dsimp only
  split
  · exact ⟨_, rfl, q_low, q_high.le, le_rfl⟩
  · exact ⟨_, rfl, by omega, by omega, by omega⟩

/-- A double below the bound was read exactly. -/
theorem floatInt_of_lt {n : Nat} (lt : floatInt n < 2 ^ 53) : floatInt n = n := by
  by_contra rounded
  have large : 2 ^ 53 < n := not_le.1 fun le => rounded (floatInt_of_le le)
  have log : 53 ≤ Nat.log2 n := (Nat.le_log2 (by omega)).2 large.le
  obtain ⟨q, is, low, -, -⟩ := floatInt_multiple large
  have unit : 2 ^ 1 ≤ 2 ^ (Nat.log2 n - 52) := Nat.pow_le_pow_right (by decide) (by omega)
  have := Nat.mul_le_mul low unit
  omega

/-- What is left of a number after its last bits is no more than its rounding. -/
theorem div_mul_le_floatInt {n u : Nat} (large : 2 ^ 53 < n) (unit : u = 2 ^ (Nat.log2 n - 52)) :
    n / u * u ≤ floatInt n := by
  obtain ⟨q, rounded, -, -, le⟩ := floatInt_multiple large
  rw [rounded, unit]
  exact Nat.mul_le_mul_right _ le

/-- Rounding the successor of a double never falls below the double. -/
theorem le_floatInt_succ (n : Nat) : floatInt n ≤ floatInt (floatInt n + 1) := by
  by_cases small : floatInt n + 1 ≤ 2 ^ 53
  · rw [floatInt_of_le small]
    exact Nat.le_succ _
  have form : ∃ q k, floatInt n = q * 2 ^ (k + 1) ∧ 2 ^ 52 ≤ q ∧ q ≤ 2 ^ 53 := by
    by_cases exact : n ≤ 2 ^ 53
    · rw [floatInt_of_le exact] at small ⊢
      exact ⟨2 ^ 52, 0, by omega, le_rfl, by omega⟩
    · obtain ⟨q, rounded, low, high, -⟩ := floatInt_multiple (not_le.1 exact)
      have log : 53 ≤ Nat.log2 n := (Nat.le_log2 (by omega)).2 (by omega)
      refine ⟨q, Nat.log2 n - 53, ?_, low, high⟩
      rw [rounded]
      congr 2
      omega
  obtain ⟨q, k, double, low, high⟩ := form
  generalize floatInt n = y at small double ⊢
  -- the unit of the successor divides the double
  have divides : 2 ^ (Nat.log2 (y + 1) - 52) ∣ y := by
    have two : 2 ≤ 2 ^ (k + 1) := by
      rw [pow_succ]
      have := Nat.two_pow_pos k
      omega
    rcases high.lt_or_eq with less | rfl
    · have log : Nat.log2 (y + 1) = 52 + (k + 1) := by
        refine (Nat.log2_eq_iff (by omega)).2 ⟨?_, ?_⟩
        · rw [pow_add]
          have := Nat.mul_le_mul_right (2 ^ (k + 1)) low
          omega
        · have := Nat.mul_le_mul_right (2 ^ (k + 1)) (show q + 1 ≤ 2 ^ 53 from less)
          rw [Nat.add_one_mul] at this
          rw [show 52 + (k + 1) + 1 = 53 + (k + 1) by omega, pow_add]
          omega
      rw [log, Nat.add_sub_cancel_left, double]
      exact Nat.dvd_mul_left _ _
    · have log : Nat.log2 (y + 1) = 53 + (k + 1) := by
        refine (Nat.log2_eq_iff (by omega)).2 ⟨?_, ?_⟩
        · rw [pow_add]
          omega
        · rw [pow_succ, pow_add, ← double]
          omega
      rw [log, double, ← pow_add]
      exact Nat.pow_dvd_pow 2 (by omega)
  calc
    y = y / 2 ^ (Nat.log2 (y + 1) - 52) * 2 ^ (Nat.log2 (y + 1) - 52) :=
      (Nat.div_mul_cancel divides).symm
    _ ≤ (y + 1) / 2 ^ (Nat.log2 (y + 1) - 52) * 2 ^ (Nat.log2 (y + 1) - 52) :=
      Nat.mul_le_mul_right _ (Nat.div_le_div_right (Nat.le_succ y))
    _ ≤ floatInt (y + 1) := div_mul_le_floatInt (by omega) rfl

/-- `Int.value`, `int(float(self.get() or 0))`. -/
def intValue (stored : Option Nat) : Nat := floatInt (stored.getD 0)

theorem le_intValue_succ (stored : Option Nat) :
    intValue stored ≤ intValue (some (intValue stored + 1)) := le_floatInt_succ _

def DocCmd.exec : (c : DocCmd) → DocStore → c.Reply × DocStore
  | .lrangeKeys, d => (d.keys, d)
  | .rpushKeys key, d => ((), { d with keys := d.keys ++ [key] })
  | .hsetPps tag x, d => ((), { d with pps := d.pps.insert tag x })
  | .hexistsPps tag, d => (decide (tag ∈ d.pps), d)
  | .rpushTags tag, d => ((), { d with tags := d.tags ++ [tag] })
  | .sortTags, d => ((), { d with tags := d.tags.insertionSort (· ≤ ·) })
  | .hsetPersist tag value, d => ((), { d with persist := d.persist.insert tag value })

variable {Name Batch : Type} [DecidableEq Name]

def Cmd.exec : (c : Cmd Name Batch) → Redis Name Batch → c.Reply × Redis Name Batch
  | .hlenUsers, s => (s.users.keys.length, s)
  | .hkeysUsers, s => (s.users.keys, s)
  | .hgetallUsers, s => (s.users.entries.map fun e => (e.1, e.2), s)
  | .hgetUsers user, s => (s.users.lookup user, s)
  | .hsetUsers user position, s => ((), { s with users := s.users.insert user position })
  | .getId, s => (s.id, s)
  | .setId value, s => ((), { s with id := some value })
  | .hkeysChanges, s => (s.changes.keys, s)
  | .hgetChanges id, s => (s.changes.lookup id, s)
  | .hsetChanges id batch, s => ((), { s with changes := s.changes.insert id batch })
  | .hgetUserChanges user, s => (s.userChanges.lookup user, s)
  | .hsetUserChanges user ids, s => ((), { s with userChanges := s.userChanges.insert user ids })
  | .doc c, s => ((c.exec s.doc).1, { s with doc := (c.exec s.doc).2 })
  | .allocate, s =>
      (intValue (some (intValue s.id + 1)), { s with id := some (intValue s.id + 1) })

/-- The empty database, as `redis_manager.flushall()` leaves it at start-up. -/
def Redis.empty : Redis Name Batch where
  users := ∅
  id := none
  changes := ∅
  userChanges := ∅
  doc := { keys := [], pps := ∅, tags := [], persist := ∅ }

end ColabEdit.Server
