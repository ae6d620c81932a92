import LeanCtx.JsonText
import LeanCtx.TextFile

/-!
# Files of JSON records

A record is one line of a file. When the window at the end of the file starts
inside a long string of its last record, what it shows is the end of that
record, which is no record.
-/

namespace LeanCtx.RecordFile

open ByteText TextFile JsonText

theorem fields_chars_ne_nil (entries : List (String × Doc)) : (fields entries).chars ≠ [] := by
  intro hnil
  have hbrace := Fields.chars_getLast? entries
  rw [hnil] at hbrace
  cases hbrace

theorem oneLine_obj {entries : List (String × Doc)} (h : entries ≠ []) :
    OneLine (Doc.obj (fields entries)).text := by
  constructor
  · rw [Doc.text, String.toList_ofList]
    exact Doc.newline_not_mem _
  · obtain ⟨entry, rest, rfl⟩ := List.exists_cons_of_ne_nil h
    obtain ⟨pre, hpre⟩ := Doc.obj_chars_suffix [entry] rest (List.cons_ne_nil _ _)
    rw [Doc.text, String.toList_ofList, ← List.singleton_append, ← hpre,
      List.getLast?_append_of_ne_nil _ (fields_chars_ne_nil rest), Fields.chars_getLast?]
    decide

theorem head?_obj {entries : List (String × Doc)} (h : entries ≠ []) :
    (Doc.obj (fields entries)).text.toList.head? = some '{' := by
  obtain ⟨entry, rest, rfl⟩ := List.exists_cons_of_ne_nil h
  rw [Doc.text, String.toList_ofList]
  rfl

theorem quote_replicate (n : ℕ) : quote (String.ofList (List.replicate n 'a')) =
    '"' :: (List.replicate n 'a' ++ ['"']) := by
  have hchar : escapeChar 'a' = ['a'] := by decide
  have hflat : (List.replicate n 'a').flatMap escapeChar = List.replicate n 'a' := by
    induction n with
    | zero => rfl
    | succ n ih => rw [List.replicate_succ, List.flatMap_cons, ih, hchar, List.singleton_append]
  rw [quote, String.toList_ofList, hflat]

/-- The record ends in the string and the fields after it. -/
theorem obj_chars_long (m : ℕ) (key : String) (front back : List (String × Doc))
    (hfront : front ≠ []) : ∃ pre,
    (Doc.obj (fields (front ++ (key, .str (String.ofList (List.replicate m 'a'))) :: back))).chars =
      pre ++ (List.replicate m 'a' ++ '"' :: (fields back).chars) := by
  obtain ⟨pre, hpre⟩ := Doc.obj_chars_suffix front
    ((key, .str (String.ofList (List.replicate m 'a'))) :: back) hfront
  refine ⟨pre ++ ',' :: (quote key ++ [':', '"']), ?_⟩
  rw [← hpre]
  change pre ++ ',' :: (quote key ++ ':' :: (quote (String.ofList (List.replicate m 'a')) ++ _)) = _
  rw [quote_replicate]
  simp only [List.append_assoc, List.cons_append, List.nil_append]
  rfl

/-- The only line in the window is no record. -/
theorem window_inside_string {n m : ℕ} {key : String} {front back : List (String × Doc)}
    (hfront : front ≠ []) (hshort : 4 * (fields back).chars.length + 6 ≤ n) (hlong : n ≤ m) :
    ∃ shown : String, shown.toList.head? = some 'a' ∧ lines (shown ++ "\n") = [shown] ∧
      lastBytes n (utf8 ((Doc.obj (fields
        (front ++ (key, .str (String.ofList (List.replicate m 'a'))) :: back))).text ++ "\n")) =
        utf8 (shown ++ "\n") := by
  obtain ⟨pre, hpre⟩ := obj_chars_long m key front back hfront
  have hlen : 4 * ('"' :: (fields back).chars).length + 2 ≤ n := by
    rw [List.length_cons]
    omega
  obtain ⟨k, hk⟩ := @lastBytes_long n m pre ('"' :: (fields back).chars) hlen hlong
  refine ⟨String.ofList ('a' :: (List.replicate k 'a' ++ '"' :: (fields back).chars)), ?_, ?_, ?_⟩
  · rw [String.toList_ofList, List.head?_cons]
  · have hlast : ('a' :: (List.replicate k 'a' ++ '"' :: (fields back).chars)).getLast? =
        some '}' := by
      rw [← List.cons_append, List.append_cons,
        List.getLast?_append_of_ne_nil _ (fields_chars_ne_nil back), Fields.chars_getLast?]
    apply lines_oneLine
    rw [OneLine, String.toList_ofList, hlast]
    have hnewline := Fields.newline_not_mem (fields back)
    simp [hnewline]
  · rw [Doc.text, hpre]
    exact hk

end LeanCtx.RecordFile
