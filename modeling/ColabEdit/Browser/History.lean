/-
# ColabEdit.Browser.History -- what a page shows after a history of changes

`PPS.attach` for every pair of tag and code of a history, from the page as it is
loaded.  Every tag has the code it was last attached with (`lastCode`), `'0'` and
`'1'` count as attached with 0, and a tag with another code is in the list.
-/
import ColabEdit.Browser.Client

namespace ColabEdit.Browser

open BigTag
open ColabEdit.Theory

set_option autoImplicit false

/-- The code a tag was attached with last; 0 for none. -/
def lastCode {Tag : Type} [DecidableEq Tag] (entries : List (Tag × CharCode)) (t : Tag) : CharCode :=
  entries.foldl (fun code e => if e.1 = t then e.2 else code) 0

theorem lastCode_concat {Tag : Type} [DecidableEq Tag] (entries : List (Tag × CharCode))
    (e : Tag × CharCode) (t : Tag) :
    lastCode (entries ++ [e]) t = if e.1 = t then e.2 else lastCode entries t := List.foldl_concat ..

namespace Pps

variable {Tag Num : Type} [LinearOrder Tag] [BigTag Tag Num]

omit [BigTag Tag Num] in
theorem attachAll_concat (s : Pps Tag) (entries : List (Tag × CharCode)) (e : Tag × CharCode) :
    s.attachAll (entries ++ [e]) = (s.attachAll entries).attach e.1 e.2 := List.foldl_concat ..

/-- The page after a history. -/
structure Remembers (entries : List (Tag × CharCode)) (s : Pps Tag) : Prop where
  sorted : s.ppsTags.Pairwise (· ≤ ·)
  zero : tag0 ∈ s.ppsTags
  one : tag1 ∈ s.ppsTags
  code : ∀ t ∈ s.ppsTags, s.pps t = some (lastCode entries t)
  shown : ∀ t, lastCode entries t ≠ 0 → t ∈ s.ppsTags

theorem remembers (entries : List (Tag × CharCode)) : Remembers entries (fresh.attachAll entries) := by
  induction entries using List.reverseRecOn with
  | nil =>
      refine ⟨framed_fresh.sorted, framed_fresh.zero_mem, framed_fresh.one_mem, fun t member => ?_,
        fun t ne => absurd rfl ne⟩
      have ends : t = tag0 ∨ t = tag1 := by simpa [fresh] using member
      exact if_pos ends
  | append_singleton entries e ih =>
      rw [attachAll_concat]
      generalize fresh.attachAll entries = s at ih ⊢
      by_cases zero : e.2 = 0
      · rw [zero, attach_zero]
        refine ⟨ih.sorted, ih.zero, ih.one, fun t member => ?_, fun t ne => ?_⟩
        · rw [lastCode_concat]
          by_cases same : e.1 = t
          · subst same
            rw [if_pos rfl, zero]
            exact mark_pps_self ..
          · rw [if_neg same, mark_pps_ne s (Ne.symm same)]
            exact ih.code t member
        · rw [lastCode_concat] at ne
          split at ne
          · exact absurd zero ne
          · exact ih.shown t ne
      · rw [attach_of_ne s e.1 zero]
        refine ⟨sorted_push .., mem_push.2 (Or.inl ih.zero), mem_push.2 (Or.inl ih.one), fun t member => ?_,
          fun t ne => ?_⟩
        · rw [lastCode_concat, push_pps]
          by_cases same : e.1 = t
          · subst same
            rw [if_pos rfl]
            exact mark_pps_self ..
          · rw [if_neg same, mark_pps_ne s (Ne.symm same)]
            exact ih.code t ((mem_push.1 member).resolve_right (Ne.symm same))
        · rw [lastCode_concat] at ne
          rw [mem_push]
          by_cases same : e.1 = t
          · exact Or.inr same.symm
          · rw [if_neg same] at ne
            exact Or.inl (ih.shown t ne)

/-- What a tag of the list shows. -/
theorem Remembers.textOf_eq {entries : List (Tag × CharCode)} {s : Pps Tag} (remembers : Remembers entries s)
    {tags : List Tag} (listed : ∀ t ∈ tags, t ∈ s.ppsTags) :
    s.textOf tags = tags.flatMap fun t => units (lastCode entries t) := by
  induction tags with
  | nil => rfl
  | cons t rest ih =>
      have code := remembers.code t (listed t (by simp))
      rw [textOf_cons, List.flatMap_cons, ih fun u member => listed u (by simp [member])]
      congr 1
      by_cases zero : lastCode entries t = 0 <;> simp [units, Pps.shown, Pps.char, code, zero]

end Pps

end ColabEdit.Browser
