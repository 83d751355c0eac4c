import SqlCompose.Text.Basic

/-! Blank characters and trimming. A blank is any character with the Unicode property
White_Space, so trimming also removes a no-break space or an ideographic space. -/

namespace SqlCompose

/-- The characters with the property White_Space. -/
def isBlank (c : Char) : Bool :=
  let n := c.toNat
  n == 0x20 || (0x09 ≤ n && n ≤ 0x0d) || n == 0x85 || n == 0xa0 || n == 0x1680
    || (0x2000 ≤ n && n ≤ 0x200a) || n == 0x2028 || n == 0x2029 || n == 0x202f
    || n == 0x205f || n == 0x3000

namespace Text

def trimStart (s : Text) : Text :=
  s.dropWhile isBlank

def trimEnd (s : Text) : Text :=
  (s.reverse.dropWhile isBlank).reverse

def trim (s : Text) : Text :=
  trimEnd (trimStart s)

def isAllBlank (s : Text) : Bool :=
  s.all isBlank

theorem trimStart_eq_nil_iff {s : Text} : trimStart s = [] ↔ isAllBlank s = true := by
  induction s with
  | nil => exact Iff.intro (fun _ => rfl) (fun _ => rfl)
  | cons c s ih =>
    cases h : isBlank c with
    | false => simp [trimStart, isAllBlank, h]
    | true =>
      simp only [trimStart, isAllBlank, List.dropWhile_cons, List.all_cons, h, if_true,
        Bool.true_and]
      exact ih

theorem trimEnd_eq_nil_iff {s : Text} : trimEnd s = [] ↔ isAllBlank s = true := by
  rw [trimEnd, List.reverse_eq_nil_iff]
  have reversed := trimStart_eq_nil_iff (s := s.reverse)
  rw [isAllBlank, List.all_reverse] at reversed
  exact reversed

end Text

end SqlCompose
