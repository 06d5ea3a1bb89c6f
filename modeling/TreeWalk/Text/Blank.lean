/-
White space, and text without any at its end.
-/

namespace TreeWalk.Text

/-- Whether a character is white space, as Unicode has it. -/
def isSpace (c : Char) : Bool :=
  let n := c.toNat
  (9 ≤ n && n ≤ 13) || n == 0x20 || n == 0x85 || n == 0xa0 || n == 0x1680 ||
    (0x2000 ≤ n && n ≤ 0x200a) || n == 0x2028 || n == 0x2029 || n == 0x202f || n == 0x205f ||
    n == 0x3000

/-- The text without the white space at its end. -/
def trimmedEnd (s : String) : String := String.ofList (s.toList.reverse.dropWhile isSpace).reverse

theorem isSpace_of_isDigit {c : Char} (h : c.isDigit = true) : isSpace c = false := by
  rw [Char.isDigit, Bool.and_eq_true, decide_eq_true_eq, decide_eq_true_eq, ge_iff_le,
    UInt32.le_iff_toNat_le, UInt32.le_iff_toNat_le] at h
  have hlow : 48 ≤ c.toNat := h.1
  have hhigh : c.toNat ≤ 57 := h.2
  simp only [isSpace, Bool.or_eq_false_iff, Bool.and_eq_false_iff, decide_eq_false_iff_not,
    beq_eq_false_iff_ne]
  omega

/-- What stands before white space at the end stays as it is, if it does not end in any. -/
theorem trimmedEnd_append {body last : List Char} {c : Char} (hc : isSpace c = false)
    (hlast : ∀ x ∈ last, isSpace x = true) :
    trimmedEnd (String.ofList (body ++ c :: last)) = String.ofList (body ++ [c]) := by
  have hdrop : (last.reverse ++ (c :: body.reverse)).dropWhile isSpace = c :: body.reverse := by
    rw [List.dropWhile_append_of_pos fun x hx => hlast x (List.mem_reverse.1 hx),
      List.dropWhile_cons_of_neg (by rw [hc]; decide)]
  rw [trimmedEnd, String.toList_ofList, List.reverse_append, List.reverse_cons, List.append_assoc,
    List.singleton_append, hdrop, List.reverse_cons, List.reverse_reverse]

end TreeWalk.Text
