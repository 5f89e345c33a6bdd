import Mathlib.Data.String.Basic

/-!
Splitting a string at a character, in terms of the list of its characters.
-/

namespace Pimento.SplitOn

open String

/-- The loop of `splitOn` stands after `l` and the piece `m` it is reading. -/
lemma splitOnAux_singleton (c : Char) (l m r : List Char) (acc : List String) :
    splitOnAux (ofList (l ++ m ++ r)) (ofList [c]) ⟨utf8Len l⟩ ⟨utf8Len l + utf8Len m⟩ 0 acc =
      acc.reverse ++ (List.splitOnPPrepend (· == c) r m.reverse).map ofList := by
  induction r generalizing l m acc with
  | nil =>
    have hend : Pos.Raw.atEnd (ofList (l ++ m ++ [])) ⟨utf8Len l + utf8Len m⟩ = true := by
      rw [atEnd_iff, rawEndPos_ofList, List.append_nil, utf8Len_append]
      exact Nat.le_refl _
    rw [splitOnAux, if_pos hend, extract_of_valid]
    simp
  | cons d r ih =>
    have hlen : utf8Len (l ++ m) = utf8Len l + utf8Len m := utf8Len_append ..
    have hend : ¬ Pos.Raw.atEnd (ofList (l ++ m ++ d :: r)) ⟨utf8Len l + utf8Len m⟩ = true := by
      have hpos := d.utf8Size_pos
      rw [atEnd_iff, rawEndPos_ofList, utf8Len_append, utf8Len_append, utf8Len_cons,
        Pos.Raw.mk_le_mk]
      omega
    have hget := get_of_valid (l ++ m) (d :: r)
    have hnext := next_of_valid (l ++ m) d r
    have hsep : Pos.Raw.get (ofList [c]) 0 = c := get_of_valid [] [c]
    have hsep' : Pos.Raw.next (ofList [c]) 0 = ⟨0 + c.utf8Size⟩ := next_of_valid [] c []
    have hsepEnd : Pos.Raw.atEnd (ofList [c]) ⟨0 + c.utf8Size⟩ = true := by
      rw [atEnd_iff, rawEndPos_ofList]
      simp
    rw [hlen] at hget hnext
    rw [splitOnAux, if_neg hend, hget, hsep]
    by_cases hd : d = c
    · -- the piece ends here
      subst hd
      have hback : Pos.Raw.unoffsetBy ⟨utf8Len l + utf8Len m + d.utf8Size⟩ ⟨0 + d.utf8Size⟩ =
          ⟨utf8Len l + utf8Len m⟩ := by
        simp [Pos.Raw.unoffsetBy]
      have h := ih (l ++ m ++ [d]) [] (ofList m :: acc)
      simp only [List.headD_cons, beq_self_eq_true, if_true, hnext, hsep', hsepEnd, hback,
        extract_of_valid]
      simpa [List.splitOnPPrepend_cons_pos, Nat.add_assoc] using h
    · -- the piece goes on
      have hback : Pos.Raw.unoffsetBy ⟨utf8Len l + utf8Len m⟩ 0 = ⟨utf8Len l + utf8Len m⟩ := rfl
      have h := ih l (m ++ [d]) acc
      simp only [List.headD_cons, beq_iff_eq, hd, if_false, hback, hnext]
      simpa [List.splitOnPPrepend_cons_neg, hd, Nat.add_assoc] using h

/-- `splitOn` at a character splits the list of characters. -/
theorem splitOn_singleton (s : String) (c : Char) :
    s.splitOn (singleton c) = (s.toList.splitOn c).map ofList := by
  have h := splitOnAux_singleton c [] [] s.toList []
  have hc : (singleton c == "") = false := by simp
  unfold splitOn
  rw [hc, if_neg (by decide), List.splitOn_eq_splitOnP]
  simpa using h

/-- A separator between two strings splits them. -/
theorem splitOn_append_singleton (s t : String) (c : Char) :
    (s ++ singleton c ++ t).splitOn (singleton c) =
      s.splitOn (singleton c) ++ t.splitOn (singleton c) := by
  simp [splitOn_singleton, List.splitOn_append_cons_self]

end Pimento.SplitOn
