/-! Texts brought to a least width with spaces. Longer texts are left as they are. -/
namespace Regalloc.Text

def spaces (n : Nat) : String := String.ofList (List.replicate n ' ')

def padLeft (width : Nat) (text : String) : String := spaces (width - text.length) ++ text

def padRight (width : Nat) (text : String) : String := text ++ spaces (width - text.length)

end Regalloc.Text
