import TeenyLang.Text.Similarity

set_option autoImplicit false

/-!
# Words of the command line

The words are split into options, with their values as texts, and arguments. Options and
arguments may come in any order. A long option may have its value in the same word after an
equals sign; short options may share a word, and the rest of the word after one that takes a
value is its value. An option that takes a value and has none in its word takes the next
word, whatever it looks like. The word `--` ends the options. Nothing is said here about
whether a value fits.
-/
namespace TeenyLang.CommandLine

inductive Flag where
  | output | precision | tokens | verbose | version | help
deriving DecidableEq, Repr

namespace Flag

def all : List Flag :=
  [output, precision, tokens, verbose, version, help]

def longName : Flag → String
  | output => "--output"
  | precision => "--precision"
  | tokens => "--tokens"
  | verbose => "--verbose"
  | version => "--version"
  | help => "--help"

def letter? : Flag → Option Char
  | output => some 'o'
  | precision => some 'p'
  | verbose => some 'v'
  | tokens | version | help => none

def takesValue : Flag → Bool
  | output | precision => true
  | tokens | verbose | version | help => false

def ofLongName? (name : String) : Option Flag :=
  all.find? fun flag => flag.longName == name

def ofLetter? (letter : Char) : Option Flag :=
  all.find? fun flag => flag.letter? == some letter

end Flag

inductive WordFault where
  | noSuchOption (name : String) (possibilities : List String)
  | needsValue (name : String)
  | takesNoValue (name : String)
deriving DecidableEq, Repr

/-- The options in the order in which they stand, and the arguments in theirs. -/
structure Words where
  options : List (Flag × Option String) := []
  arguments : List String := []
deriving DecidableEq, Repr

/-- What one word of options says: the options that are complete, and the option, under the
name it was given, that takes the next word as its value. -/
structure OptionWord where
  complete : List (Flag × Option String) := []
  open? : Option (Flag × String) := none
deriving DecidableEq, Repr

/-- A word split at its first equals sign; the second part is none if there is no such
sign. -/
def splitEquals (word : List Char) : List Char × Option (List Char) :=
  match word.dropWhile (· ≠ '=') with
  | [] => (word, none)
  | _ :: value => (word.takeWhile (· ≠ '='), some value)

def readLetters : List Char → Except WordFault OptionWord
  | [] => .ok {}
  | letter :: rest =>
    let name := String.ofList ['-', letter]
    match Flag.ofLetter? letter with
    | none => .error (.noSuchOption name [])
    | some flag =>
      if !flag.takesValue then do
        let later ← readLetters rest
        return { later with complete := (flag, none) :: later.complete }
      else if rest.isEmpty then
        .ok { open? := some (flag, name) }
      else
        .ok { complete := [(flag, some (String.ofList rest))] }

/-- Reads a word that starts with a hyphen and has more. A word that starts with two hyphens
must be a long option. -/
def readOptionWord (word : List Char) : Except WordFault OptionWord :=
  let (nameChars, value) := splitEquals word
  let name := String.ofList nameChars
  match Flag.ofLongName? name with
  | some flag =>
    match flag.takesValue, value with
    | true, some value => .ok { complete := [(flag, some (String.ofList value))] }
    | true, none => .ok { open? := some (flag, name) }
    | false, some _ => .error (.takesNoValue name)
    | false, none => .ok { complete := [(flag, none)] }
  | none =>
    match word with
    | '-' :: '-' :: _ =>
      .error (.noSuchOption name (Text.closeMatches name (Flag.all.map Flag.longName)))
    | _ => readLetters word.tail

def isOptionWord (word : List Char) : Bool :=
  match word with
  | '-' :: _ :: _ => true
  | _ => false

def splitWords : List String → Except WordFault Words
  | [] => .ok {}
  | word :: rest =>
    if word == "--" then .ok { arguments := rest }
    else if !isOptionWord word.toList then do
      let later ← splitWords rest
      return { later with arguments := word :: later.arguments }
    else do
      let read ← readOptionWord word.toList
      match read.open?, rest with
      | none, rest =>
        let later ← splitWords rest
        return { later with options := read.complete ++ later.options }
      | some (_, name), [] => throw (.needsValue name)
      | some (flag, _), value :: rest =>
        let later ← splitWords rest
        return { later with options := read.complete ++ (flag, some value) :: later.options }

namespace Words

def has (w : Words) (flag : Flag) : Bool :=
  w.options.any fun given => given.1 == flag

def lastValue? (w : Words) (flag : Flag) : Option String :=
  (w.options.reverse.lookup flag).join

/-- The options that are given, each once, in the order of their first appearance. -/
def flags (w : Words) : List Flag :=
  (w.options.map Prod.fst).eraseDups

end Words

end TeenyLang.CommandLine
