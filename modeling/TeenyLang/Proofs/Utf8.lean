import TeenyLang.Text.Utf8
import Mathlib.Data.List.TakeWhile

set_option autoImplicit false

/-!
# UTF-8 is read as it is written

`Octets` gives the spellings of a character: one to four octets, none longer than needed and none
of a surrogate. The encoder writes them (`octets_encode`), the decoder reads them one octet at a time
(`decodeFrom_octets`) and reads nothing else (`octets_of_decodeFrom`). So a sequence of octets is
readable exactly if it spells a text, and that text is what is read (`decodeUtf8_eq_ok_iff`). A text
has octets exactly if none of its characters stands for a lone surrogate.
-/
namespace TeenyLang.Text

def IsTail (b : UInt8) : Prop :=
  0x80 ≤ b.toNat ∧ b.toNat ≤ 0xBF

/-- An octet that goes on with a character after the octet `a`: the ranges after `low` and `high`
are narrower, so that nothing is spelled longer than needed and nothing that is no character. -/
def IsSecond (low least high greatest : Nat) (a b : UInt8) : Prop :=
  IsTail b ∧ (a.toNat = low → least ≤ b.toNat) ∧ (a.toNat = high → b.toNat ≤ greatest)

/-- The code point `code` with six more bits. -/
def append6 (code : Nat) (b : UInt8) : Nat :=
  code * 64 + (b.toNat - 0x80)

inductive Octets : List UInt8 → Nat → Prop
  | one {a : UInt8} {code : Nat} (ha : a.toNat < 0x80) (hcode : code = a.toNat) : Octets [a] code
  | two {a b : UInt8} {code : Nat} (ha : 0xC2 ≤ a.toNat ∧ a.toNat ≤ 0xDF) (hb : IsTail b)
      (hcode : code = append6 (a.toNat - 0xC0) b) : Octets [a, b] code
  | three {a b c : UInt8} {code : Nat} (ha : 0xE0 ≤ a.toNat ∧ a.toNat ≤ 0xEF)
      (hb : IsSecond 0xE0 0xA0 0xED 0x9F a b) (hc : IsTail c)
      (hcode : code = append6 (append6 (a.toNat - 0xE0) b) c) : Octets [a, b, c] code
  | four {a b c d : UInt8} {code : Nat} (ha : 0xF0 ≤ a.toNat ∧ a.toNat ≤ 0xF4)
      (hb : IsSecond 0xF0 0x90 0xF4 0x8F a b) (hc : IsTail c) (hd : IsTail d)
      (hcode : code = append6 (append6 (append6 (a.toNat - 0xF0) b) c) d) : Octets [a, b, c, d] code

theorem Octets.isValidChar {bytes : List UInt8} {code : Nat} (h : Octets bytes code) :
    code.isValidChar := by
  rw [Nat.isValidChar]
  cases h with
  | one ha hcode => omega
  | two ha hb hcode =>
    unfold append6 at hcode
    unfold IsTail at hb
    omega
  | three ha hb hc hcode =>
    unfold append6 at hcode
    unfold IsSecond IsTail at hb
    unfold IsTail at hc
    omega
  | four ha hb hc hd hcode =>
    unfold append6 at hcode
    unfold IsSecond IsTail at hb
    unfold IsTail at hc hd
    omega

/-! ## Writing -/

theorem toNat_octet {n : Nat} (h : n < 256) : (UInt8.ofNat n).toNat = n :=
  UInt8.toNat_ofNat_of_lt' h

theorem octet_eq {a : UInt8} {n : Nat} (h : n = a.toNat) : UInt8.ofNat n = a := by
  rw [h, UInt8.ofNat_toNat]

theorem octets_encode (c : Char) : Octets (String.utf8EncodeChar c) c.toNat := by
  have hvalid : c.toNat.isValidChar := c.valid
  rw [Nat.isValidChar] at hvalid
  have htail (n : Nat) : (UInt8.ofNat (n % 64 + 128)).toNat = n % 64 + 128 :=
    toNat_octet (by omega)
  have hIsTail (n : Nat) : IsTail (UInt8.ofNat (n % 64 + 128)) := by
    rw [IsTail, htail]
    omega
  unfold String.utf8EncodeChar
  simp only [Char.toNat_val]
  generalize c.toNat = code at hvalid ⊢
  split
  · have ha : (UInt8.ofNat code).toNat = code := toNat_octet (by omega)
    exact .one (by omega) ha.symm
  split
  · have ha : (UInt8.ofNat (code / 64 % 32 + 192)).toNat = code / 64 % 32 + 192 :=
      toNat_octet (by omega)
    refine .two (by omega) (hIsTail _) ?_
    unfold append6
    rw [ha, htail]
    omega
  split
  · have ha : (UInt8.ofNat (code / 4096 % 16 + 224)).toNat = code / 4096 % 16 + 224 :=
      toNat_octet (by omega)
    refine .three (by omega) ⟨hIsTail _, ?_, ?_⟩ (hIsTail _) ?_
    · rw [ha, htail]
      omega
    · rw [ha, htail]
      omega
    · unfold append6
      rw [ha, htail, htail]
      omega
  · have ha : (UInt8.ofNat (code / 262144 % 8 + 240)).toNat = code / 262144 % 8 + 240 :=
      toNat_octet (by omega)
    refine .four (by omega) ⟨hIsTail _, ?_, ?_⟩ (hIsTail _) (hIsTail _) ?_
    · rw [ha, htail]
      omega
    · rw [ha, htail]
      omega
    · unfold append6
      rw [ha, htail, htail, htail]
      omega

theorem encode_of_octets {bytes : List UInt8} {code : Nat} (h : Octets bytes code) :
    String.utf8EncodeChar (Char.ofNat code) = bytes := by
  have hcode : (Char.ofNat code).toNat = code := by
    rw [Char.ofNat, dif_pos h.isValidChar]
    rfl
  unfold String.utf8EncodeChar
  simp only [Char.toNat_val, hcode]
  cases h with
  | one ha hcode =>
    rw [if_pos (by omega), octet_eq hcode]
  | @two a b _ ha hb hcode =>
    unfold append6 at hcode
    unfold IsTail at hb
    have hfirst : code / 64 % 32 + 192 = a.toNat := by omega
    have hsecond : code % 64 + 128 = b.toNat := by omega
    rw [if_neg (by omega), if_pos (by omega), octet_eq hfirst, octet_eq hsecond]
  | @three a b c _ ha hb hc hcode =>
    unfold append6 at hcode
    unfold IsSecond IsTail at hb
    unfold IsTail at hc
    have hfirst : code / 4096 % 16 + 224 = a.toNat := by omega
    have hsecond : code / 64 % 64 + 128 = b.toNat := by omega
    have hthird : code % 64 + 128 = c.toNat := by omega
    rw [if_neg (by omega), if_neg (by omega), if_pos (by omega), octet_eq hfirst,
      octet_eq hsecond, octet_eq hthird]
  | @four a b c d _ ha hb hc hd hcode =>
    unfold append6 at hcode
    unfold IsSecond IsTail at hb
    unfold IsTail at hc hd
    have hfirst : code / 262144 % 8 + 240 = a.toNat := by omega
    have hsecond : code / 4096 % 64 + 128 = b.toNat := by omega
    have hthird : code / 64 % 64 + 128 = c.toNat := by omega
    have hfourth : code % 64 + 128 = d.toNat := by omega
    rw [if_neg (by omega), if_neg (by omega), if_neg (by omega), octet_eq hfirst,
      octet_eq hsecond, octet_eq hthird, octet_eq hfourth]

/-! ## First octets -/

theorem leadOctet?_two {a : UInt8} (ha : 0xC2 ≤ a.toNat ∧ a.toNat ≤ 0xDF) :
    leadOctet? a = some ⟨[a], a.toNat - 0xC0, 1, 0x80, 0xBF⟩ :=
  if_pos (by simpa [UInt8.le_iff_toNat_le] using ha)

/-- What is asked of the octet after the first is what the decoder asks. -/
theorem isSecond_iff {low least high greatest : Nat} {a b lo hi : UInt8}
    (hlo : lo.toNat = if a.toNat = low then least else 0x80)
    (hhi : hi.toNat = if a.toNat = high then greatest else 0xBF) (hleast : 0x80 ≤ least)
    (hgreatest : greatest ≤ 0xBF) : IsSecond low least high greatest a b ↔ lo ≤ b ∧ b ≤ hi := by
  unfold IsSecond IsTail
  rw [UInt8.le_iff_toNat_le, UInt8.le_iff_toNat_le, hlo, hhi]
  split <;> split <;> omega

theorem leadOctet?_three {a : UInt8} (ha : 0xE0 ≤ a.toNat ∧ a.toNat ≤ 0xEF) :
    ∃ least greatest, leadOctet? a = some ⟨[a], a.toNat - 0xE0, 2, least, greatest⟩ ∧
      ∀ b, IsSecond 0xE0 0xA0 0xED 0x9F a b ↔ least ≤ b ∧ b ≤ greatest := by
  by_cases hlow : a = 0xE0
  · subst hlow
    exact ⟨0xA0, 0xBF, rfl, fun b => isSecond_iff rfl rfl (by omega) (by omega)⟩
  by_cases hhigh : a = 0xED
  · subst hhigh
    exact ⟨0x80, 0x9F, rfl, fun b => isSecond_iff rfl rfl (by omega) (by omega)⟩
  have hlow' : a.toNat ≠ 0xE0 := fun h => hlow (UInt8.toNat_inj.1 h)
  have hhigh' : a.toNat ≠ 0xED := fun h => hhigh (UInt8.toNat_inj.1 h)
  refine ⟨0x80, 0xBF, ?_, fun b => ?_⟩
  · simp only [leadOctet?, UInt8.le_iff_toNat_le, UInt8.reduceToNat, hlow, hhigh, if_false]
    rw [if_neg (by simp; omega), if_pos (by simp; omega)]
  · exact isSecond_iff (if_neg hlow').symm (if_neg hhigh').symm (by omega) (by omega)

theorem leadOctet?_four {a : UInt8} (ha : 0xF0 ≤ a.toNat ∧ a.toNat ≤ 0xF4) :
    ∃ least greatest, leadOctet? a = some ⟨[a], a.toNat - 0xF0, 3, least, greatest⟩ ∧
      ∀ b, IsSecond 0xF0 0x90 0xF4 0x8F a b ↔ least ≤ b ∧ b ≤ greatest := by
  by_cases hlow : a = 0xF0
  · subst hlow
    exact ⟨0x90, 0xBF, rfl, fun b => isSecond_iff rfl rfl (by omega) (by omega)⟩
  by_cases hhigh : a = 0xF4
  · subst hhigh
    exact ⟨0x80, 0x8F, rfl, fun b => isSecond_iff rfl rfl (by omega) (by omega)⟩
  have hlow' : a.toNat ≠ 0xF0 := fun h => hlow (UInt8.toNat_inj.1 h)
  have hhigh' : a.toNat ≠ 0xF4 := fun h => hhigh (UInt8.toNat_inj.1 h)
  refine ⟨0x80, 0xBF, ?_, fun b => ?_⟩
  · have hother : a ≠ 0xE0 ∧ a ≠ 0xED := by
      constructor <;> rintro rfl <;> exact absurd ha (by decide)
    simp only [leadOctet?, UInt8.le_iff_toNat_le, UInt8.reduceToNat, hlow, hhigh, hother, if_false]
    rw [if_neg (by simp; omega), if_neg (by simp; omega), if_pos (by simp; omega)]
  · exact isSecond_iff (if_neg hlow').symm (if_neg hhigh').symm (by omega) (by omega)

/-- No other octets begin a character. -/
theorem leadOctet?_range {a : UInt8} {char : PartialChar} (h : leadOctet? a = some char) :
    (0xC2 ≤ a.toNat ∧ a.toNat ≤ 0xDF) ∨ (0xE0 ≤ a.toNat ∧ a.toNat ≤ 0xEF) ∨
      (0xF0 ≤ a.toNat ∧ a.toNat ≤ 0xF4) := by
  simp only [leadOctet?, UInt8.le_iff_toNat_le, ← UInt8.toNat_inj, UInt8.reduceToNat,
    Bool.and_eq_true, decide_eq_true_eq] at h
  refine Decidable.byContradiction fun hother => ?_
  rw [if_neg (by omega), if_neg (by omega), if_neg (by omega), if_neg (by omega),
    if_neg (by omega), if_neg (by omega), if_neg (by omega)] at h
  cases h

/-! ## Reading -/

theorem decodeFrom_one {a : UInt8} (ha : a.toNat < 0x80) (position : Nat) (rest : List UInt8) :
    decodeFrom position none (a :: rest) =
      (Char.ofNat a.toNat :: ·) <$> decodeFrom (position + 1) none rest := by
  rw [decodeFrom, if_pos (UInt8.lt_iff_toNat_lt.2 ha)]

theorem decodeFrom_lead {a : UInt8} {char : PartialChar} (ha : 0x80 ≤ a.toNat)
    (hlead : leadOctet? a = some char) (position : Nat) (rest : List UInt8) :
    decodeFrom position none (a :: rest) = decodeFrom (position + 1) (some char) rest := by
  have hlarge : ¬ a < 0x80 := fun h => absurd (UInt8.lt_iff_toNat_lt.1 h) (by simpa using ha)
  rw [decodeFrom, if_neg hlarge, hlead]

theorem decodeFrom_more {char : PartialChar} {b : UInt8} (hb : char.least ≤ b ∧ b ≤ char.greatest)
    (howed : char.owed ≠ 1) (position : Nat) (rest : List UInt8) :
    decodeFrom position (some char) (b :: rest) =
      decodeFrom (position + 1)
        (some ⟨char.octets ++ [b], append6 char.code b, char.owed - 1, 0x80, 0xBF⟩) rest := by
  rw [decodeFrom, if_pos (by simpa using hb), if_neg howed]
  rfl

theorem decodeFrom_last {char : PartialChar} {b : UInt8} (hb : char.least ≤ b ∧ b ≤ char.greatest)
    (howed : char.owed = 1) (position : Nat) (rest : List UInt8) :
    decodeFrom position (some char) (b :: rest) =
      (Char.ofNat (append6 char.code b) :: ·) <$> decodeFrom (position + 1) none rest := by
  rw [decodeFrom, if_pos (by simpa using hb), if_pos howed]
  rfl

theorem isTail_iff {b : UInt8} : IsTail b ↔ 0x80 ≤ b ∧ b ≤ 0xBF := by
  rw [IsTail, UInt8.le_iff_toNat_le, UInt8.le_iff_toNat_le]
  rfl

theorem decodeFrom_octets {bytes : List UInt8} {code : Nat} (h : Octets bytes code)
    (position : Nat) (rest : List UInt8) :
    decodeFrom position none (bytes ++ rest) =
      (Char.ofNat code :: ·) <$> decodeFrom (position + bytes.length) none rest := by
  cases h with
  | one ha hcode => exact hcode ▸ decodeFrom_one ha position rest
  | two ha hb hcode =>
    rw [hcode]
    exact (decodeFrom_lead (by omega) (leadOctet?_two ha) _ _).trans
      (decodeFrom_last (isTail_iff.1 hb) rfl _ _)
  | three ha hb hc hcode =>
    obtain ⟨least, greatest, hlead, hsecond⟩ := leadOctet?_three ha
    rw [hcode]
    exact (decodeFrom_lead (by omega) hlead _ _).trans <|
      (decodeFrom_more ((hsecond _).1 hb) (by simp) _ _).trans
        (decodeFrom_last (isTail_iff.1 hc) rfl _ _)
  | four ha hb hc hd hcode =>
    obtain ⟨least, greatest, hlead, hsecond⟩ := leadOctet?_four ha
    rw [hcode]
    exact (decodeFrom_lead (by omega) hlead _ _).trans <|
      (decodeFrom_more ((hsecond _).1 hb) (by simp) _ _).trans <|
        (decodeFrom_more (isTail_iff.1 hc) (by simp) _ _).trans
          (decodeFrom_last (isTail_iff.1 hd) rfl _ _)

/-- With a character under way there has to be an octet, and in its range. -/
theorem pending_eq_ok {char : PartialChar} {position : Nat} {octets : List UInt8}
    {chars : List Char} (h : decodeFrom position (some char) octets = .ok chars) :
    ∃ b rest, octets = b :: rest ∧ char.least ≤ b ∧ b ≤ char.greatest := by
  cases octets with
  | nil => cases h
  | cons b rest =>
    rw [decodeFrom] at h
    split at h
    · next hb => exact ⟨b, rest, rfl, by simpa using hb⟩
    · cases h

theorem octets_of_decodeFrom {a : UInt8} {position : Nat} {octets : List UInt8}
    {chars : List Char} (h : decodeFrom position none (a :: octets) = .ok chars) :
    ∃ bytes code rest, a :: octets = bytes ++ rest ∧ Octets bytes code := by
  by_cases ha : a.toNat < 0x80
  · exact ⟨[a], a.toNat, octets, rfl, .one ha rfl⟩
  cases hlead : leadOctet? a with
  | none =>
    have hlarge : ¬ a < 0x80 := fun h => ha (UInt8.lt_iff_toNat_lt.1 h)
    rw [decodeFrom, if_neg hlarge, hlead] at h
    cases h
  | some char =>
    rw [decodeFrom_lead (by omega) hlead] at h
    obtain ⟨b, rest, rfl, hb⟩ := pending_eq_ok h
    rcases leadOctet?_range hlead with ha | ha | ha
    · cases hlead.symm.trans (leadOctet?_two ha)
      exact ⟨[a, b], _, rest, rfl, .two ha (isTail_iff.2 hb) rfl⟩
    · obtain ⟨least, greatest, hlead', hsecond⟩ := leadOctet?_three ha
      cases hlead.symm.trans hlead'
      rw [decodeFrom_more hb (by simp)] at h
      obtain ⟨c, rest, rfl, hc⟩ := pending_eq_ok h
      exact ⟨[a, b, c], _, rest, rfl, .three ha ((hsecond b).2 hb) (isTail_iff.2 hc) rfl⟩
    · obtain ⟨least, greatest, hlead', hsecond⟩ := leadOctet?_four ha
      cases hlead.symm.trans hlead'
      rw [decodeFrom_more hb (by simp)] at h
      obtain ⟨c, rest, rfl, hc⟩ := pending_eq_ok h
      rw [decodeFrom_more hc (by simp)] at h
      obtain ⟨d, rest, rfl, hd⟩ := pending_eq_ok h
      exact ⟨[a, b, c, d], _, rest, rfl,
        .four ha ((hsecond b).2 hb) (isTail_iff.2 hc) (isTail_iff.2 hd) rfl⟩

theorem map_eq_ok {ε α β : Type} {f : α → β} {x : Except ε α} {b : β} (h : f <$> x = .ok b) :
    ∃ a, x = .ok a ∧ f a = b := by
  cases x with
  | error e => cases h
  | ok a => exact ⟨a, rfl, Except.ok.inj h⟩

theorem decodeFrom_eq_ok_iff {position : Nat} {octets : List UInt8} {chars : List Char} :
    decodeFrom position none octets = .ok chars ↔ octets = chars.flatMap String.utf8EncodeChar := by
  constructor
  · -- on the number of octets: each character takes some of them
    intro h
    induction hlength : octets.length using Nat.strongRecOn generalizing position octets chars with
    | _ n ih =>
      cases octets with
      | nil =>
        cases h
        rfl
      | cons a octets =>
        obtain ⟨bytes, code, rest, hsplit, hbytes⟩ := octets_of_decodeFrom h
        rw [hsplit, decodeFrom_octets hbytes] at h
        obtain ⟨later, hlater, rfl⟩ := map_eq_ok h
        have hrest : rest.length < n := by
          have hpos : 0 < bytes.length := by cases hbytes <;> simp
          have htotal := congrArg List.length hsplit
          rw [List.length_append, hlength] at htotal
          omega
        rw [hsplit, List.flatMap_cons, encode_of_octets hbytes, ih _ hrest hlater rfl]
  · rintro rfl
    induction chars generalizing position with
    | nil => rfl
    | cons c chars ih =>
      rw [List.flatMap_cons, decodeFrom_octets (octets_encode c), ih, Char.ofNat_toNat]
      rfl

/-- Octets are read exactly if they spell a text, and as that text. -/
theorem decodeUtf8_eq_ok_iff {octets : ByteArray} {chars : List Char} :
    decodeUtf8 octets = .ok chars ↔ octets = encodeUtf8 (String.ofList chars) := by
  have hwritten : encodeUtf8 (String.ofList chars) =
      (chars.flatMap String.utf8EncodeChar).toByteArray := rfl
  rw [decodeUtf8, decodeFrom_eq_ok_iff, hwritten]
  constructor
  · intro h
    rw [← h]
    exact ByteArray.ext (by simp)
  · rintro rfl
    simp

/-! ## Texts with lone surrogates -/

theorem encodeStrict_eq_ok {lone : List Char} {text : String} (h : ∀ c ∈ text.toList, c ∉ lone) :
    encodeStrict lone text = .ok (encodeUtf8 text) := by
  have hnil : (text.toList.dropWhile fun c => !lone.contains c) = [] := by
    refine List.dropWhile_eq_nil_iff.2 fun c hc => ?_
    simp [h c hc]
  simp only [encodeStrict, hnil]

theorem encodeStrict_eq_error {lone : List Char} {text : String}
    (h : ¬∀ c ∈ text.toList, c ∉ lone) : ∃ error, encodeStrict lone text = .error error := by
  unfold encodeStrict
  split
  case h_1 hnil =>
    refine absurd (fun c hc => ?_) h
    simpa using List.dropWhile_eq_nil_iff.1 hnil c hc
  case h_2 => exact ⟨_, rfl⟩

end TeenyLang.Text
