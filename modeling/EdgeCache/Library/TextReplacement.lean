import Mathlib.Data.List.Basic

/-!
Replacing a character of a text by another text. `String.replace` searches the text and copies
what lies between the matches; what it makes of the characters of the text is `substitute`.
-/
namespace TextReplacement

open String.Slice.Pattern String.Slice.Pattern.Model

/-- What replacing makes of a text: every `c` becomes the replacement. -/
def substitute (c : Char) (replacement : String) (text : List Char) : List Char :=
  text.flatMap fun x => if x = c then replacement.toList else [x]

variable {c : Char} {replacement : String}

theorem substitute_append (text text' : List Char) :
    substitute c replacement (text ++ text') =
      substitute c replacement text ++ substitute c replacement text' :=
  List.flatMap_append

theorem substitute_of_notMem {text : List Char} (h : c ∉ text) :
    substitute c replacement text = text := by
  induction text with
  | nil => rfl
  | cons x rest ih =>
    obtain ⟨hx, hrest⟩ := not_or.mp fun hor => h (List.mem_cons.mpr hor)
    rw [substitute, List.flatMap_cons, if_neg (Ne.symm hx)]
    exact congrArg (x :: ·) (ih hrest)

theorem notMem_of_not_matchesAt {s : String.Slice} {p q : s.Pos} {part before after : String}
    (hp : p.Splits before (part ++ after)) (hq : q.Splits (before ++ part) after)
    (hnone : ∀ r, p ≤ r → r < q → ¬ MatchesAt (String.singleton c) r) : c ∉ part.toList := by
  intro hmem
  obtain ⟨u, w, huw⟩ := List.append_of_mem hmem
  have hpart : part = String.ofList u ++ (String.singleton c ++ String.ofList w) := by
    apply String.toList_injective
    simp [huw]
  have hs : s.copy = (before ++ String.ofList u) ++
      (String.singleton c ++ (String.ofList w ++ after)) := by
    rw [hp.eq_append, hpart]
    simp only [String.append_assoc]
  have hr := String.Slice.Pos.splits_ofEqAppend hs
  refine hnone _ ((hp.le_iff_exists_eq_append hr).mpr ⟨String.ofList u, rfl, ?_⟩)
    ((hr.lt_iff_exists_eq_append hq).mpr ⟨String.singleton c ++ String.ofList w, ?_, ?_, ?_⟩) ?_
  · rw [hpart]
    simp only [String.append_assoc]
  · intro hempty
    have hchars := congrArg String.toList hempty
    simp at hchars
  · rw [hpart]
    simp only [String.append_assoc]
  · simp only [String.append_assoc]
  · exact ForwardStringSearcher.matchesAt_iff_splits.mpr ⟨_, _, hr⟩

def copyStep {s : String.Slice} (replacement : String) (sofar : String) : SearchStep s → String
  | .matched .. => sofar ++ replacement.toSlice
  | .rejected start stop => sofar ++ s.slice! start stop

theorem toList_foldl_copyStep (replacement : String) {s : String.Slice} {p : s.Pos}
    {steps : List (SearchStep s)} (h : IsValidSearchFrom (String.singleton c) p steps)
    (sofar : String) :
    (steps.foldl (copyStep replacement) sofar).toList =
      sofar.toList ++ substitute c replacement (s.sliceFrom p).copy.toList := by
  induction h generalizing sofar with
  | endPos => simp [substitute]
  | matched hmatch _ ih =>
    rw [ForwardStringSearcher.isLongestMatchAt_iff_isLongestMatchAt_toSlice,
      ForwardSliceSearcher.isLongestMatchAt_iff_splits] at hmatch
    obtain ⟨before, after, hp, hq⟩ := hmatch
    rw [List.foldl_cons, ih, hp.copy_sliceFrom_eq, hq.copy_sliceFrom_eq]
    simp [copyStep, substitute]
  | @mismatched rest p q hlt hnone _ ih =>
    obtain ⟨part, -, hbefore, hafter⟩ := (p.splits.lt_iff_exists_eq_append q.splits).mp hlt
    have hp : p.Splits (s.sliceTo p).copy (part ++ (s.sliceFrom q).copy) := hafter ▸ p.splits
    have hq : q.Splits ((s.sliceTo p).copy ++ part) (s.sliceFrom q).copy := hbefore ▸ q.splits
    obtain ⟨hle, hpart⟩ := String.Slice.copy_slice_eq_iff_splits.mpr ⟨_, _, hp, hq⟩
    have hcopy : (copyStep replacement sofar (.rejected p q)).toList =
        sofar.toList ++ part.toList := by
      rw [copyStep, ← String.Slice.slice_eq_slice! (h := hle), ← hpart]
      simp
    rw [List.foldl_cons, ih, hcopy, hafter, String.toList_append, substitute_append,
      substitute_of_notMem (notMem_of_not_matchesAt hp hq hnone), List.append_assoc]

theorem toList_replace (s : String) (c : Char) (replacement : String) :
    (s.replace (String.singleton c) replacement).toList =
      substitute c replacement s.toList := by
  have hvalid : IsValidSearchFrom (String.singleton c) s.toSlice.startPos
      (ToForwardSearcher.toSearcher (String.singleton c) s.toSlice).toList :=
    (ForwardStringSearcher.lawfulToForwardSearcherModel (by simp)).isValidSearchFrom_toList _
  have hfold := toList_foldl_copyStep replacement hvalid ""
  rw [Std.Iter.foldl_toList] at hfold
  simp only [String.toList_empty, String.Slice.sliceFrom_startPos, String.copy_toSlice,
    List.nil_append] at hfold
  rw [← hfold, String.replace, String.Slice.replace]
  congr 2
  funext sofar step
  cases step <;> rfl

end TextReplacement
