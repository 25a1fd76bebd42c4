/-!
# Styles

On a terminal a piece of text can have a style: a sequence in front of it switches the
style on, and a sequence behind it switches all styles off.  Where the text holds that
second sequence itself, the style is switched on again after it.
-/
namespace TokenFlow.Text

/-- How a piece of text looks. -/
structure Style where
  /-- The numbers of the style, as the terminal expects them. -/
  codes : String

namespace Style

def title : Style := ⟨"1;36"⟩
def bold : Style := ⟨"1"⟩
def dimmed : Style := ⟨"2"⟩
def red : Style := ⟨"31"⟩
def green : Style := ⟨"32"⟩
def yellow : Style := ⟨"33"⟩
def blue : Style := ⟨"34"⟩

/-- The sequence that switches the style on. -/
def opening (s : Style) : String :=
  "\x1b[" ++ s.codes ++ "m"

/-- The sequence that switches all styles off. -/
def reset : String := "\x1b[0m"

/-- Puts a text behind each reset. -/
def reopen (opening : List Char) : List Char → List Char
  | '\x1b' :: '[' :: '0' :: 'm' :: rest =>
    '\x1b' :: '[' :: '0' :: 'm' :: (opening ++ reopen opening rest)
  | c :: rest => c :: reopen opening rest
  | [] => []

/-- A text in the style, or as it is where there are no styles. -/
def paint (styled : Bool) (s : Style) (text : String) : String :=
  if styled then
    s.opening ++ String.ofList (reopen s.opening.toList text.toList) ++ reset
  else text

end Style

end TokenFlow.Text
