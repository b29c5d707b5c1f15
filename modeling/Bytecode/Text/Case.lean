-- SUMMARY: Comparing names without regard to ASCII case.

/-!
# Case folding

Mnemonics and class names are compared without regard to the case of ASCII letters. All other
characters stand for themselves.
-/

namespace Bytecode

/-- The text with every ASCII capital replaced by its small letter. -/
def foldCase (s : String) : String := s.map Char.toLower

theorem toList_foldCase (s : String) : (foldCase s).toList = s.toList.map Char.toLower := by
  simp [foldCase]

end Bytecode
