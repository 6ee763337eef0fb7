/-! # Modifier sets

A set of modifiers is a number with one bit per modifier, laid out like the access flags of a
class file; the bits above those exist in source texts only.  `Modifiers.render` writes a set
in the order in which modifiers are usually written. -/

namespace AspectLang

/-- A set of modifiers, one bit each. -/
abbrev Modifiers := Nat

namespace Modifiers

def publicFlag : Modifiers := 0x0001
def privateFlag : Modifiers := 0x0002
def protectedFlag : Modifiers := 0x0004
def staticFlag : Modifiers := 0x0008
def finalFlag : Modifiers := 0x0010
def synchronizedFlag : Modifiers := 0x0020
def volatileFlag : Modifiers := 0x0040
def transientFlag : Modifiers := 0x0080
def nativeFlag : Modifiers := 0x0100
def interfaceFlag : Modifiers := 0x0200
def abstractFlag : Modifiers := 0x0400
def strictfpFlag : Modifiers := 0x0800
def annotationFlag : Modifiers := 0x2000
def enumFlag : Modifiers := 0x4000
/-- Default methods of interfaces; not a class-file flag. -/
def defaultMethodFlag : Modifiers := 0x10000
/-- Privileged aspects; not a class-file flag. -/
def privilegedFlag : Modifiers := 0x200000

/-- The flags of a class file. -/
def classFileMask : Modifiers := 0xFFFF

/-- The flags that take part when bindings are compared. -/
def equalityMask : Modifiers := classFileMask ||| interfaceFlag ||| enumFlag ||| annotationFlag

/-- Whether two sets have a flag in common. -/
def meets (a b : Modifiers) : Bool := a &&& b != 0

/-- The flags with their keywords, in writing order. -/
def keywords : List (Modifiers × String) := [
  (publicFlag, "public"), (protectedFlag, "protected"), (privateFlag, "private"),
  (abstractFlag, "abstract"), (defaultMethodFlag, "default"), (staticFlag, "static"),
  (finalFlag, "final"), (transientFlag, "transient"), (volatileFlag, "volatile"),
  (synchronizedFlag, "synchronized"), (nativeFlag, "native"), (strictfpFlag, "strictfp")]

/-- The keywords of a set, one blank between them. -/
def render (m : Modifiers) : String :=
  " ".intercalate ((keywords.filter fun (flag, _) => m.meets flag).map (·.2))

end Modifiers

end AspectLang
