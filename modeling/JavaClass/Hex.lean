/-!
# Hexadecimal numbers in messages
-/

namespace JavaClass

/-- Upper-case hexadecimal digits of `n`, padded with zeros to at least `width` of them. -/
def hexUpper (n width : Nat) : String :=
  let digits := (Nat.toDigits 16 n).map Char.toUpper
  String.ofList (List.replicate (width - digits.length) '0' ++ digits)

end JavaClass
