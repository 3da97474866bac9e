import MarkupText.Text.Basic

namespace MarkupText

structure Buffer where
  chars : Array Char
  length : Nat
  length_eq : length = Text.byteLength chars.toList

namespace Buffer

def text (b : Buffer) : Text := b.chars.toList

def ofText (cs : Text) : Buffer := ⟨cs.toArray, Text.byteLength cs, by rw [List.toList_toArray]⟩

def append (b : Buffer) (cs : Text) : Buffer :=
  ⟨b.chars ++ cs, b.length + Text.byteLength cs, by
    rw [Array.toList_appendList, Text.byteLength_append, b.length_eq]⟩

@[simp] theorem text_ofText (cs : Text) : (ofText cs).text = cs := List.toList_toArray

@[simp] theorem text_append (b : Buffer) (cs : Text) : (b.append cs).text = b.text ++ cs :=
  Array.toList_appendList

theorem byteLength_text (b : Buffer) : Text.byteLength b.text = b.length := b.length_eq.symm

end Buffer

end MarkupText
