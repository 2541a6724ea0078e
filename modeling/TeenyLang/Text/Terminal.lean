set_option autoImplicit false

/-!
# Text for a stream that is no terminal

Terminal control sequences of the form `ESC [ parameters letter` are dropped from what is
echoed. An escape character that starts no such sequence stays.
-/
namespace TeenyLang.Text

def isControlParameter (c : Char) : Bool :=
  c.isDigit || c = ';' || c = '?'

/-- What follows a control sequence whose bracket has been read, if there is one. -/
def afterControl? (rest : List Char) : Option (List Char) :=
  match rest.dropWhile isControlParameter with
  | c :: after => if c.isAlpha then some after else none
  | [] => none

theorem afterControl?_length {rest after : List Char} (h : afterControl? rest = some after) :
    after.length < rest.length := by
  unfold afterControl? at h
  have shorter := (List.dropWhile_suffix isControlParameter (l := rest)).length_le
  split at h
  · next c tail drop =>
    rw [drop] at shorter
    split at h
    · cases h
      exact shorter
    · cases h
  · cases h

def withoutControls (text : List Char) : List Char :=
  match text with
  | [] => []
  | '\x1b' :: '[' :: rest =>
    match h : afterControl? rest with
    | some after =>
      have := afterControl?_length h
      withoutControls after
    | none => '\x1b' :: withoutControls ('[' :: rest)
  | c :: rest => c :: withoutControls rest
termination_by text.length
decreasing_by all_goals simp_all <;> omega

/-- What a stream that is no terminal receives of `text`. -/
def plain (text : String) : String :=
  String.ofList (withoutControls text.toList)

end TeenyLang.Text
