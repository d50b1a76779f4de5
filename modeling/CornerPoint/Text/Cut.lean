/-!
Cuts: ways to take a stretch off the front of a text. What is taken and what is left always make up
the text again, so that readers built from cuts lose nothing and end.
-/
namespace CornerPoint.Text

structure Cut where
  run : List Char → List Char × List Char
  exact (text : List Char) : (run text).1 ++ (run text).2 = text

namespace Cut

def taken (cut : Cut) (text : List Char) : List Char := (cut.run text).1

def rest (cut : Cut) (text : List Char) : List Char := (cut.run text).2

@[simp] theorem taken_append_rest (cut : Cut) (text : List Char) :
    cut.taken text ++ cut.rest text = text :=
  cut.exact text

theorem length_taken_add_length_rest (cut : Cut) (text : List Char) :
    (cut.taken text).length + (cut.rest text).length = text.length := by
  rw [← List.length_append, taken_append_rest]

theorem length_rest_le (cut : Cut) (text : List Char) : (cut.rest text).length ≤ text.length := by
  have := cut.length_taken_add_length_rest text
  omega

/-- As many characters of a class as there are. -/
def many (p : Char → Bool) : Cut where
  run text := (text.takeWhile p, text.dropWhile p)
  exact _ := List.takeWhile_append_dropWhile

/-- One character of a class, if there is one. -/
def one (p : Char → Bool) : Cut where
  run
    | [] => ([], [])
    | c :: text => if p c then ([c], text) else ([], c :: text)
  exact text := by
    cases text with
    | nil => rfl
    | cons c text =>
      simp only
      split <;> rfl

/-- One cut after another. -/
def andThen (first second : Cut) : Cut where
  run text := (first.taken text ++ second.taken (first.rest text), second.rest (first.rest text))
  exact text := by simp

/-- The same cut if it takes what is asked for, and nothing otherwise. -/
def onlyIf (cut : Cut) (wanted : List Char → Bool) : Cut where
  run text := if wanted (cut.taken text) then cut.run text else ([], text)
  exact text := by
    split
    · exact cut.exact text
    · rfl

instance : Append Cut := ⟨andThen⟩

end Cut

end CornerPoint.Text
