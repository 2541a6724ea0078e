import TeenyLang.Proofs.Numerals
import TeenyLang.Proofs.PrintedText
import Mathlib.Data.Set.Function

set_option autoImplicit false

/-!
# Question marks in C

Of the question marks of a string those that follow another one get a backslash. Then no two of
them stand side by side, so there is no trigraph, and a second time nothing is left to escape. With
the backslashes before question marks taken out, the C form and the string come to the same
(`plainMarks_stringCharsAfter`). A string of a program has no backslash, so it is found again from
its C form.
-/
namespace TeenyLang

open Grammar

/-! ## Marks that stand apart -/

theorem C.MarksApart.not_infix {text : List Char} (h : C.MarksApart text) :
    ¬ ['?', '?'] <:+: text := by
  intro hpair
  have happart : C.MarksApart ['?', '?'] := List.IsChain.infix h hpair
  exact (List.isChain_cons_cons.1 happart).1 ⟨rfl, rfl⟩

theorem stringCharsAfter_of_marksApart {afterMark : Bool} {text : List Char}
    (h : C.MarksApart text) (hhead : afterMark = true → text.head? ≠ some '?') :
    Target.stringCharsAfter afterMark text = text := by
  induction text generalizing afterMark with
  | nil => rfl
  | cons c text ih =>
    rcases stringCharsAfter_step afterMark c text with ⟨hafter, rfl, -⟩ | ⟨-, hform⟩
    · exact absurd rfl (hhead hafter)
    · have hnext : decide (c = '?') = true → text.head? ≠ some '?' := fun hc hmore =>
        (List.isChain_cons.1 h).1 '?' hmore ⟨of_decide_eq_true hc, rfl⟩
      rw [hform, ih h.of_cons hnext]

theorem stringChars_stringChars (text : List Char) :
    Target.stringChars (Target.stringChars text) = Target.stringChars text :=
  stringCharsAfter_of_marksApart (marksApart_stringCharsAfter false text).1 (by simp)

/-! ## Backslashes before marks -/

/-- A text with a question mark in place of each pair of a backslash and a question mark. -/
def plainMarks : List Char → List Char
  | [] => []
  | '\\' :: '?' :: rest => '?' :: plainMarks rest
  | c :: rest => c :: plainMarks rest

theorem plainMarks_escaped (rest : List Char) :
    plainMarks ('\\' :: '?' :: rest) = '?' :: plainMarks rest :=
  rfl

theorem plainMarks_cons {c : Char} {rest : List Char}
    (h : ¬ (c = '\\' ∧ rest.head? = some '?')) :
    plainMarks (c :: rest) = c :: plainMarks rest := by
  rw [plainMarks]
  rintro rest' rfl rfl
  exact h ⟨rfl, rfl⟩

theorem escapedMark_prefix_cons {c : Char} {rest : List Char} :
    ['\\', '?'] <+: c :: rest ↔ c = '\\' ∧ rest.head? = some '?' := by
  cases rest <;> simp [List.cons_prefix_cons, eq_comm]

theorem plainMarks_eq_self_iff {text : List Char} :
    plainMarks text = text ↔ ¬ ['\\', '?'] <:+: text := by
  induction text with
  | nil => simp [plainMarks]
  | cons c text ih =>
    rw [List.infix_cons_iff, escapedMark_prefix_cons, not_or]
    by_cases hpair : c = '\\' ∧ text.head? = some '?'
    · obtain ⟨rfl, hhead⟩ := hpair
      obtain ⟨rest, rfl⟩ := List.head?_eq_some_iff.1 hhead
      simp [plainMarks_escaped]
    · rw [plainMarks_cons hpair, List.cons_inj_right, ih, and_iff_right hpair]

theorem head_stringChars (text : List Char) : (Target.stringChars text).head? = text.head? := by
  cases text <;> rfl

/-- The C form differs from the text in escapes of marks only. This holds of every text, also of one
that has such escapes already. -/
theorem plainMarks_stringCharsAfter (afterMark : Bool) (text : List Char) :
    plainMarks (Target.stringCharsAfter afterMark text) = plainMarks text := by
  fun_induction plainMarks text generalizing afterMark with
  | case1 => rfl
  | case2 rest ih => simp [Target.stringCharsAfter, plainMarks_escaped, ih]
  | case3 c rest hpair ih =>
    rcases stringCharsAfter_step afterMark c rest with ⟨-, rfl, hform⟩ | ⟨-, hform⟩ <;> rw [hform]
    · rw [plainMarks_escaped, ih]
    · rw [plainMarks_cons, ih]
      -- a backslash of the text is not before a mark, and what comes after it begins as before
      rintro ⟨rfl, hnext⟩
      have hhead : rest.head? = some '?' := (head_stringChars rest).symm.trans hnext
      obtain ⟨rest', rfl⟩ := List.head?_eq_some_iff.1 hhead
      exact hpair rest' rfl rfl

theorem plainMarks_string {text : String} (h : '\\' ∉ text.toList) :
    plainMarks (Target.string text).toList = text.toList := by
  have hpair : ¬ ['\\', '?'] <:+: text.toList := fun hpair => h (hpair.subset List.mem_cons_self)
  rw [Target.string, String.toList_ofList, Target.stringChars, plainMarks_stringCharsAfter,
    plainMarks_eq_self_iff.2 hpair]

-- with backslashes allowed, two texts may be written in the same way
example : Target.string "??" = Target.string "?\\?" := by decide

theorem backslash_notMem_of_next {s s' : Scanner} {t : Token} (h : s.next = .ok t s')
    (hkind : t.kind = .string) : '\\' ∉ t.text.toList := by
  have hwritten : Written t := written_of_next h (by simp [hkind])
  intro hmem
  exact Written.string (t := ⟨t, by simp [hkind]⟩) hwritten _ hmem (by decide)

/-- The C form of a text, whatever it is, has no two question marks side by side, so C finds no
trigraph in it, and it is its own C form. If the text has no backslash, then it is what the form
gives when each backslash with a question mark after it is read as a question mark. So different
texts of strings that a scanner gives have different forms. -/
theorem string_spelling :
    (∀ text, ¬ ['?', '?'] <:+: (Target.string text).toList ∧
      C.trigraphs (Target.string text).toList = (Target.string text).toList ∧
      Target.string (Target.string text) = Target.string text) ∧
    (∀ text : String, '\\' ∉ text.toList →
      plainMarks (Target.string text).toList = text.toList) ∧
    Set.InjOn Target.string
      {text | ∃ (s s' : Scanner) (t : Token),
        s.next = .ok t s' ∧ t.kind = .string ∧ t.text = text} := by
  refine ⟨fun text => ?_, fun text h => plainMarks_string h, ?_⟩
  · have happart : C.MarksApart (Target.string text).toList := by
      rw [Target.string, String.toList_ofList]
      exact (marksApart_stringCharsAfter false text.toList).1
    refine ⟨happart.not_infix, C.trigraphs_of_marksApart happart, ?_⟩
    rw [Target.string, Target.string, String.toList_ofList, stringChars_stringChars]
  · rintro _ ⟨s, s', t, hnext, hkind, rfl⟩ _ ⟨u, u', v, hnext', hkind', rfl⟩ hform
    apply String.toList_injective
    calc t.text.toList
        = plainMarks (Target.string t.text).toList :=
          (plainMarks_string (backslash_notMem_of_next hnext hkind)).symm
      _ = plainMarks (Target.string v.text).toList := by rw [hform]
      _ = v.text.toList := plainMarks_string (backslash_notMem_of_next hnext' hkind')

/-- A run of marks overlaps itself, and a mark more or less is seen in the form. -/
theorem string_spelling_run :
    ¬ ['?', '?'] <:+: "?\\?\\?/".toList ∧
      Target.string "?\\?\\?/" = "?\\?\\?/" ∧
      plainMarks "?\\?\\?/".toList = "???/".toList ∧
      Target.string "??/" ≠ Target.string "???/" := by
  obtain ⟨hall, hback, hinj⟩ := string_spelling
  have hform : Target.string "???/" = "?\\?\\?/" := by decide
  obtain ⟨hapart, -, htwice⟩ := hall "???/"
  have hplain := hback "???/" (by decide)
  rw [hform] at hapart htwice hplain
  refine ⟨hapart, htwice, hplain, fun hsame => ?_⟩
  have htexts : "??/" = "???/" := hinj
    ⟨Scanner.start "\"??/\"" "marks", _, ⟨.string, "??/", ⟨"marks", 1, 1⟩⟩, rfl, rfl, rfl⟩
    ⟨Scanner.start "\"???/\"" "marks", _, ⟨.string, "???/", ⟨"marks", 1, 1⟩⟩, rfl, rfl, rfl⟩ hsame
  exact absurd htexts (by decide)

end TeenyLang
