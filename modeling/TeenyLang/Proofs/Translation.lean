import TeenyLang.Proofs.Names
import TeenyLang.Target.Spelling

set_option autoImplicit false

/-!
# Translation of derivation trees

The C text of a tree, part by part and without a parser. A binary operator has a space on each
side and a sign has none. The text of a program declares each variable once, in the order in
which LET and INPUT first name them, before it goes through the statements.
-/
namespace TeenyLang.Grammar

def Primary.code : Primary → String
  | number t => Target.number t.1.text
  | ident t => Target.name t.1.text

def Unary.code (u : Unary) : String :=
  match u.sign with
  | some sign => sign.1.text ++ u.operand.code
  | none => u.operand.code

def concatMap {ι : Type} (code : ι → String) : List ι → String
  | [] => ""
  | i :: rest => code i ++ concatMap code rest

def linkCode {operators : List Kind} {α : Type} (code : α → String)
    (link : Leaf operators × α) : String :=
  " " ++ link.1.1.text ++ " " ++ code link.2

def Chain.code {operators : List Kind} {α : Type} (code : α → String)
    (c : Chain operators α) : String :=
  code c.head ++ concatMap (linkCode code) c.tail

def Term.code : Term → String :=
  Chain.code Unary.code

def Expression.code : Expression → String :=
  Chain.code Term.code

def Comparison.code (c : Comparison) : String :=
  Chain.code Expression.code c.1

def line (text : String) : String :=
  text ++ "\n"

def Printed.code (precision : Int) : Printed → String
  | text t => line ("printf(\"" ++ Target.string t.1.text ++ "\\n\");")
  | value e =>
    line ("printf(\"%." ++ toString precision ++ "f\\n\", (float)(" ++ Expression.code e ++ "));")

def BlockForm.word : BlockForm → String
  | ifThen => "if"
  | whileRepeat => "while"

def inputCode (target : String) : String :=
  line ("if (0 == scanf(\"%f\", &" ++ target ++ ")) \x7b") ++ line (target ++ " = 0;") ++
    line "scanf(\"%*s\");" ++ line "\x7d"

mutual

def Statement.code (precision : Int) : Statement → String
  | .print _ printed _ => printed.code precision
  | .label _ name _ => line (Target.name name.1.text ++ ":;")
  | .goto _ name _ => line ("goto " ++ Target.name name.1.text ++ ";")
  | .assign _ name _ value _ =>
    line (Target.name name.1.text ++ " = " ++ Expression.code value ++ ";")
  | .input _ name _ => inputCode (Target.name name.1.text)
  | .block form _ condition _ _ body _ _ =>
    line (form.word ++ " (" ++ Comparison.code condition ++ ") \x7b") ++
      bodyCode precision body ++ line "\x7d"

def bodyCode (precision : Int) : List Statement → String
  | [] => ""
  | s :: rest => s.code precision ++ bodyCode precision rest

end

def declarations (names : List String) : String :=
  concatMap (fun name => line ("float " ++ Target.name name ++ ";")) names

def Program.code (precision : Int) (P : Program) : String :=
  line "#include <stdio.h>" ++ line "int main(void) \x7b" ++
    declarations (named .target P.uses).eraseDups ++ bodyCode precision P.statements ++
    line "return 0;" ++ line "\x7d"

theorem concatMap_append {ι : Type} (code : ι → String) (xs ys : List ι) :
    concatMap code (xs ++ ys) = concatMap code xs ++ concatMap code ys := by
  induction xs with
  | nil => simp [concatMap]
  | cons x xs ih => simp [concatMap, ih, String.append_assoc]

theorem concatMap_congr {ι : Type} {f g : ι → String} {xs : List ι} (h : ∀ x ∈ xs, f x = g x) :
    concatMap f xs = concatMap g xs := by
  induction xs with
  | nil => rfl
  | cons x xs ih =>
    obtain ⟨hx, hxs⟩ := List.forall_mem_cons.1 h
    rw [concatMap, concatMap, hx, ih hxs]

theorem concatMap_map {ι κ : Type} (code : κ → String) (f : ι → κ) (xs : List ι) :
    concatMap code (xs.map f) = concatMap (fun x => code (f x)) xs := by
  induction xs with
  | nil => rfl
  | cons x xs ih => rw [List.map_cons, concatMap, ih, concatMap]

theorem bodyCode_eq_concatMap (precision : Int) (body : List Statement) :
    bodyCode precision body = concatMap (Statement.code precision) body := by
  induction body with
  | nil => rfl
  | cons s rest ih => rw [bodyCode, ih, concatMap]

end TeenyLang.Grammar
