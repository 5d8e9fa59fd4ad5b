import Schematron.Text.Split

/-!
The pieces of a text between the places where one character stands.
-/

namespace Schematron.Text

variable {sep : Char}

theorem splitAt_eq_splitOn (sep : Char) (cs : List Char) : splitAt sep cs = cs.splitOn sep := by
  induction cs with
  | nil => rfl
  | cons c cs ih =>
    have hne : cs.splitOn sep ≠ [] := List.splitOn_ne_nil sep cs
    rw [splitAt, List.splitOn_cons_eq_if_modifyHead, ih]
    simp only [beq_iff_eq]
    split
    · rfl
    · cases hpieces : cs.splitOn sep with
      | nil => exact absurd hpieces hne
      | cons piece more => rfl

theorem pieces_eq (sep : Char) (s : String) : pieces sep s = (s.toList.splitOn sep).map String.ofList := by
  rw [pieces, splitAt_eq_splitOn]

theorem pieces_ne_nil (sep : Char) (s : String) : pieces sep s ≠ [] := by
  rw [pieces_eq]
  simp

/-- No piece of a text has what the pieces are separated by. -/
theorem notMem_of_mem_splitAt {cs piece : List Char} (h : piece ∈ splitAt sep cs) : sep ∉ piece := by
  induction cs generalizing piece with
  | nil =>
    rw [List.mem_singleton.mp h]
    exact List.not_mem_nil
  | cons c cs ih =>
    unfold splitAt at h
    split at h
    · rcases List.mem_cons.mp h with rfl | h
      · exact List.not_mem_nil
      · exact ih h
    · rename_i hc
      split at h
      · rw [List.mem_singleton.mp h, List.mem_singleton]
        exact fun heq => hc heq.symm
      · rename_i first more hsplit
        rw [hsplit] at ih
        rcases List.mem_cons.mp h with rfl | h
        · have hfirst : sep ∉ first := ih List.mem_cons_self
          simp [hfirst, Ne.symm hc]
        · exact ih (List.mem_cons_of_mem _ h)

theorem notMem_of_mem_pieces {s piece : String} (h : piece ∈ pieces sep s) : sep ∉ piece.toList := by
  obtain ⟨cs, hcs, rfl⟩ := List.mem_map.mp h
  rw [String.toList_ofList]
  exact notMem_of_mem_splitAt hcs

/-- A text is its pieces with the separator put between them again. -/
theorem join_pieces (sep : Char) (s : String) :
    String.join ((pieces sep s).intersperse (String.singleton sep)) = s := by
  have hjoined : [sep].intercalate (s.toList.splitOn sep) = s.toList := List.intercalate_splitOn sep
  have hflat (ps : List (List Char)) :
      (String.join ((ps.map String.ofList).intersperse (String.singleton sep))).toList = [sep].intercalate ps := by
    induction ps with
    | nil => rfl
    | cons p ps ih =>
      cases ps with
      | nil => simp
      | cons q more =>
        rw [List.intercalate_cons_cons, ← ih]
        simp
  rw [← String.toList_inj, pieces_eq, hflat, hjoined]

theorem pieces_of_notMem {s : String} (h : sep ∉ s.toList) : pieces sep s = [s] := by
  rw [pieces_eq, List.splitOn_eq_singleton h, List.map_singleton, String.ofList_toList]

/-- What stands on either side of a separator is split by itself. -/
theorem pieces_between (sep : Char) (s t : String) :
    pieces sep (s ++ String.singleton sep ++ t) = pieces sep s ++ pieces sep t := by
  have htexts : (s ++ String.singleton sep ++ t).toList = s.toList ++ sep :: t.toList := by simp
  rw [pieces_eq, htexts, List.splitOn_append_cons_self, List.map_append, pieces_eq, pieces_eq]

theorem two_le_length_pieces {s : String} (h : sep ∈ s.toList) : 2 ≤ (pieces sep s).length := by
  obtain ⟨before, after, hs⟩ := List.append_of_mem h
  have hbefore : 0 < (before.splitOn sep).length := List.length_pos_iff.mpr (List.splitOn_ne_nil sep before)
  have hafter : 0 < (after.splitOn sep).length := List.length_pos_iff.mpr (List.splitOn_ne_nil sep after)
  rw [pieces_eq, hs, List.splitOn_append_cons_self, List.length_map, List.length_append]
  omega

end Schematron.Text
