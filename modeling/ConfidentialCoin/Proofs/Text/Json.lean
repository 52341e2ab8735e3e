import ConfidentialCoin.Text.Json.Token
import Mathlib.Data.List.TakeWhile
import Mathlib.Tactic.Ring
import Mathlib.Tactic.SplitIfs

/-!
# JSON strings

The grammar of a JSON string, and that the scanner follows it. `Spells body text` says that the
characters `body`, between quotes, are a way to write `text`: every character may be written as
itself or escaped, except that quotes, backslashes and control characters must be escaped, and a
character outside the basic plane is escaped as a surrogate pair. `IsString document text` adds the
quotes and the blanks around them.

The scanner does not decode while it reads. It leaves the pieces of a content, `Pieces body ps`
(`scanText_eq_some_iff`), and `contentText?` joins the surrogates of the pieces afterwards
(`spells_iff`). A document is a single token of text exactly when it is a string between blanks
(`scan_eq_text_iff`). So the documents that are strings are those that scan to a token with their
content (`isString_iff`).
-/

namespace ConfidentialCoin.Json

/-! ### The grammar -/

/-- The hexadecimal digits, in the order of their values. -/
def hexDigits : List Char := "0123456789abcdef".toList

/-- Four hexadecimal digits of either case write the 16-bit unit `n`. -/
def UnitDigits (a b c d : Char) (n : ℕ) : Prop :=
  ∃ i j k l : ℕ, hexDigits.idxOf? a.toLower = some i ∧ hexDigits.idxOf? b.toLower = some j ∧
    hexDigits.idxOf? c.toLower = some k ∧ hexDigits.idxOf? d.toLower = some l ∧
      n = 16 ^ 3 * i + 16 ^ 2 * j + 16 * k + l

/-- The letters that may follow a backslash, with the characters they stand for. -/
def shortEscapes : List (Char × Char) :=
  [('"', '"'), ('\\', '\\'), ('/', '/'), ('b', '\x08'), ('f', '\x0c'), ('n', '\n'), ('r', '\r'),
    ('t', '\t')]

/-- A character that may stand for itself. -/
def IsPlain (c : Char) : Prop := 0x20 ≤ c.toNat ∧ c ≠ '"' ∧ c ≠ '\\'

instance (c : Char) : Decidable (IsPlain c) :=
  inferInstanceAs (Decidable (0x20 ≤ c.toNat ∧ c ≠ '"' ∧ c ≠ '\\'))

/-- Between quotes, the first list of characters writes the second. -/
inductive Spells : List Char → List Char → Prop
  | nil : Spells [] []
  /-- A character written as itself. -/
  | plain {c : Char} {body text : List Char} (hc : IsPlain c) (h : Spells body text) :
    Spells (c :: body) (c :: text)
  /-- A character written by a short escape. -/
  | short {e c : Char} {body text : List Char} (he : (e, c) ∈ shortEscapes)
    (h : Spells body text) : Spells ('\\' :: e :: body) (c :: text)
  /-- A character written by its number, which is no surrogate. -/
  | unit {a b c d : Char} {n : ℕ} {body text : List Char} (hn : UnitDigits a b c d n)
    (hs : n < 0xD800 ∨ 0xE000 ≤ n) (h : Spells body text) :
    Spells ('\\' :: 'u' :: a :: b :: c :: d :: body) (Char.ofNat n :: text)
  /-- A character written by two surrogates, the high one first. -/
  | pair {a b c d a' b' c' d' : Char} {n m : ℕ} {body text : List Char} (hn : UnitDigits a b c d n)
    (hm : UnitDigits a' b' c' d' m) (hhigh : 0xD800 ≤ n ∧ n < 0xDC00)
    (hlow : 0xDC00 ≤ m ∧ m < 0xE000) (h : Spells body text) :
    Spells ('\\' :: 'u' :: a :: b :: c :: d :: '\\' :: 'u' :: a' :: b' :: c' :: d' :: body)
      (Char.ofNat (0x10000 + (n - 0xD800) * 0x400 + (m - 0xDC00)) :: text)

/-- The characters are a string between quotes, with the given body, and blanks around it. -/
def Quotes (cs body : List Char) : Prop :=
  ∃ before after : List Char, (∀ c ∈ before, isBlank c) ∧ (∀ c ∈ after, isBlank c) ∧
    cs = before ++ '"' :: (body ++ '"' :: after)

/-- The document is a JSON string that writes the text. -/
def IsString (document text : String) : Prop :=
  ∃ body, Quotes document.toList body ∧ Spells body text.toList

/-! ### Escapes -/

theorem shortEscape?_eq_some_iff {e c : Char} :
    shortEscape? e = some c ↔ (e, c) ∈ shortEscapes := by
  constructor
  · intro h
    unfold shortEscape? at h
    split at h <;> cases h <;> decide
  · simp only [shortEscapes, List.mem_cons, Prod.mk.injEq, List.not_mem_nil, or_false]
    rintro (⟨rfl, rfl⟩ | ⟨rfl, rfl⟩ | ⟨rfl, rfl⟩ | ⟨rfl, rfl⟩ | ⟨rfl, rfl⟩ | ⟨rfl, rfl⟩ |
      ⟨rfl, rfl⟩ | ⟨rfl, rfl⟩) <;> rfl

/-- The value of a digit is its place. -/
theorem hexValue?_eq_idxOf? (c : Char) : hexValue? c = hexDigits.idxOf? c.toLower := by
  rcases Nat.lt_or_ge c.toNat 128 with hlt | hge
  · have key : ∀ i : Fin 128,
        hexValue? (Char.ofNat i) = hexDigits.idxOf? (Char.ofNat i).toLower := by decide +kernel
    have hc := key ⟨c.toNat, hlt⟩
    rwa [Char.ofNat_toNat] at hc
  · have hall : hexDigits.all (·.toNat < 128) := by decide
    have hmem : ∀ d ∈ hexDigits, d.toNat < 128 := by simpa using hall
    have hlower : c.toLower = c := by
      refine dif_neg ?_
      rintro ⟨-, hz⟩
      have : c.toNat ≤ 90 := UInt32.le_iff_toNat_le.mp hz
      omega
    have hnone : hexDigits.idxOf? c.toLower = none := by
      rw [hlower, List.idxOf?_eq_none_iff]
      intro hc
      have := hmem c hc
      omega
    have hbound : ∀ d : Char, d.toNat < 128 → ¬ c ≤ d := by
      intro d hd hle
      have : c.toNat ≤ d.toNat := UInt32.le_iff_toNat_le.mp hle
      omega
    have hdigit : ¬ c.isDigit := by
      intro h
      have hle := (Bool.and_eq_true_iff.mp h).2
      exact hbound '9' (by decide) (of_decide_eq_true hle)
    rw [hnone, hexValue?, if_neg hdigit, if_neg fun h => hbound 'f' (by decide) h.2,
      if_neg fun h => hbound 'F' (by decide) h.2]

/-- Four digits are read as the number that they write. -/
theorem unit?_eq_some_iff {a b c d : Char} {n : ℕ} :
    unit? a b c d = some n ↔ UnitDigits a b c d n := by
  simp only [unit?, UnitDigits, ← hexValue?_eq_idxOf?, Option.bind_eq_bind,
    Option.bind_eq_some_iff, Option.pure_def, Option.some.injEq]
  constructor
  · rintro ⟨i, hi, j, hj, k, hk, l, hl, rfl⟩
    exact ⟨i, j, k, l, hi, hj, hk, hl, by ring⟩
  · rintro ⟨i, j, k, l, hi, hj, hk, hl, rfl⟩
    exact ⟨i, hi, j, hj, k, hk, l, hl, by ring⟩

/-! ### The pieces of a content -/

/-- Between quotes, the characters are read as the pieces. -/
inductive Pieces : List Char → List Piece → Prop
  | nil : Pieces [] []
  /-- A character that stands for itself. -/
  | plain {c : Char} {body : List Char} {ps : List Piece} (hc : IsPlain c) (h : Pieces body ps) :
    Pieces (c :: body) (.char c :: ps)
  | short {e c : Char} {body : List Char} {ps : List Piece} (he : (e, c) ∈ shortEscapes)
    (h : Pieces body ps) : Pieces ('\\' :: e :: body) (.char c :: ps)
  /-- A unit in hexadecimal. -/
  | unit {a b c d : Char} {n : ℕ} {body : List Char} {ps : List Piece} (hn : UnitDigits a b c d n)
    (h : Pieces body ps) : Pieces ('\\' :: 'u' :: a :: b :: c :: d :: body) (.unit n :: ps)

/-- A unit that is no surrogate stands for one character. -/
theorem contentText?_unit {n : ℕ} (hs : n < 0xD800 ∨ 0xE000 ≤ n) (ps : List Piece) :
    contentText? (.unit n :: ps) = (contentText? ps).map (Char.ofNat n :: ·) := by
  rw [contentText?.eq_def]
  exact if_pos (by simpa using hs)

/-- A high surrogate and a low one stand for one character together. -/
theorem contentText?_pair {n m : ℕ} (hhigh : 0xD800 ≤ n ∧ n < 0xDC00)
    (hlow : 0xDC00 ≤ m ∧ m < 0xE000) (ps : List Piece) :
    contentText? (.unit n :: .unit m :: ps) = (contentText? ps).map
      (Char.ofNat (0x10000 + (n - 0xD800) * 0x400 + (m - 0xDC00)) :: ·) := by
  rw [contentText?.eq_def]
  simp only
  rw [if_neg (by simp; omega), if_pos (by simp; omega)]

/-- What a spelling is read as has its text. -/
theorem Spells.exists_pieces {body text : List Char} (h : Spells body text) :
    ∃ ps, Pieces body ps ∧ contentText? ps = some text := by
  induction h with
  | nil => exact ⟨[], .nil, rfl⟩
  | plain hc _ ih =>
    obtain ⟨ps, hps, htext⟩ := ih
    exact ⟨_, .plain hc hps, by rw [contentText?, htext, Option.map_some]⟩
  | short he _ ih =>
    obtain ⟨ps, hps, htext⟩ := ih
    exact ⟨_, .short he hps, by rw [contentText?, htext, Option.map_some]⟩
  | unit hn hs _ ih =>
    obtain ⟨ps, hps, htext⟩ := ih
    refine ⟨_, .unit hn hps, ?_⟩
    rw [contentText?_unit hs, htext, Option.map_some]
  | pair hn hm hhigh hlow _ ih =>
    obtain ⟨ps, hps, htext⟩ := ih
    refine ⟨_, .unit hn (.unit hm hps), ?_⟩
    rw [contentText?_pair hhigh hlow, htext, Option.map_some]

/-- Pieces with a text were spelled. -/
theorem Pieces.spells {body text : List Char} {ps : List Piece} (h : Pieces body ps)
    (htext : contentText? ps = some text) : Spells body text := by
  fun_induction contentText? ps generalizing body text with
  | case1 =>
    cases htext
    cases h
    exact .nil
  | case2 c rest ih =>
    obtain ⟨text', htext', rfl⟩ := Option.map_eq_some_iff.mp htext
    cases h with
    | plain hc h => exact .plain hc (ih h htext')
    | short he h => exact .short he (ih h htext')
  | case3 n rest hs ih =>
    obtain ⟨text', htext', rfl⟩ := Option.map_eq_some_iff.mp htext
    cases h with
    | unit hn h => exact .unit hn (by simpa using hs) (ih h htext')
  | case4 n hs m rest hpair ih =>
    obtain ⟨text', htext', rfl⟩ := Option.map_eq_some_iff.mp htext
    cases h with
    | unit hn h =>
      cases h with
      | unit hm h =>
        simp at hs hpair
        exact .pair hn hm (by omega) (by omega) (ih h htext')
  | case5 => cases htext
  | case6 => cases htext

/-- A body spells a text exactly when it is read as pieces with that text. -/
theorem spells_iff {body text : List Char} :
    Spells body text ↔ ∃ ps, Pieces body ps ∧ contentText? ps = some text :=
  ⟨Spells.exists_pieces, fun ⟨_, hps, htext⟩ => hps.spells htext⟩

/-! ### The scanner -/

section Steps

variable {c : Char} (done : List Piece) (cs : List Char)

theorem scanText_plain (hc : IsPlain c) :
    scanText done (c :: cs) = scanText (.char c :: done) cs := by
  obtain ⟨hctrl, hquote, hescape⟩ := hc
  have hc : ¬ (decide (c.toNat < 0x20) || c == '\\') := by simpa using ⟨hctrl, hescape⟩
  rw [scanText, if_neg hc]
  · exact hquote
  · exact fun _ _ _ _ _ h _ => hescape h
  · exact fun _ _ h _ => hescape h

theorem scanText_short {e : Char} (he : shortEscape? e = some c) :
    scanText done ('\\' :: e :: cs) = scanText (.char c :: done) cs := by
  rw [scanText, he]
  -- The letter of a unit is not that of a short escape.
  rintro _ _ _ _ _ rfl -
  cases he

/-- A unit is one piece. Whether it is a surrogate is not looked at here. -/
theorem scanText_unit {a b c d : Char} {n : ℕ} (hn : unit? a b c d = some n) :
    scanText done ('\\' :: 'u' :: a :: b :: c :: d :: cs) = scanText (.unit n :: done) cs := by
  rw [scanText, hn]

end Steps

/-- **The scanner** reads a content up to the quote that ends it, as pieces. -/
theorem scanText_eq_some_iff {done ps : List Piece} {cs rest : List Char} :
    scanText done cs = some (ps, rest) ↔
      ∃ body more, Pieces body more ∧ cs = body ++ '"' :: rest ∧ ps = done.reverse ++ more := by
  constructor
  · intro h
    -- Each piece the scanner takes is one of the content, and it stops at a quote only.
    fun_induction scanText done cs with
    | case1 =>
      cases h
      exact ⟨[], [], .nil, rfl, (List.append_nil _).symm⟩
    | case2 done a b c d cs n hn ih =>
      obtain ⟨body, more, hp, rfl, rfl⟩ := ih h
      exact ⟨_, _, .unit (unit?_eq_some_iff.mp hn) hp, rfl, by simp⟩
    | case3 => cases h
    | case4 done e cs _ c hc ih =>
      obtain ⟨body, more, hp, rfl, rfl⟩ := ih h
      exact ⟨_, _, .short (shortEscape?_eq_some_iff.mp hc) hp, rfl, by simp⟩
    | case5 => cases h
    | case6 => cases h
    | case7 done c cs hquote _ _ hc ih =>
      obtain ⟨body, more, hp, rfl, rfl⟩ := ih h
      have hplain : 0x20 ≤ c.toNat ∧ c ≠ '\\' := by simpa using hc
      exact ⟨_, _, .plain ⟨hplain.1, hquote, hplain.2⟩ hp, rfl, by simp⟩
    | case8 => cases h
  · rintro ⟨body, more, hp, rfl, rfl⟩
    induction hp generalizing done with
    | nil => rw [List.nil_append, scanText, List.append_nil]
    | plain hc _ ih =>
      rw [List.cons_append, scanText_plain _ _ hc, ih]
      simp
    | short he _ ih =>
      simp only [List.cons_append]
      rw [scanText_short _ _ (shortEscape?_eq_some_iff.mpr he), ih]
      simp
    | unit hn _ ih =>
      simp only [List.cons_append]
      rw [scanText_unit _ _ (unit?_eq_some_iff.mpr hn), ih]
      simp

/-! ### Documents -/

/-- A number is no text. -/
theorem scanNumber_ne_text {cs rest : List Char} {content : List Piece} :
    scanNumber cs ≠ some (.text content, rest) := by
  intro h
  simp only [scanNumber] at h
  split_ifs at h
  · cases h
  · obtain ⟨_, -, h⟩ := Option.bind_eq_some_iff.mp h
    obtain ⟨_, -, h⟩ := Option.bind_eq_some_iff.mp h
    cases h

/-- Only a quote begins a text. -/
theorem scanToken_eq_text_iff {c : Char} {cs rest : List Char} {content : List Piece} :
    scanToken (c :: cs) = some (.text content, rest) ↔
      c = '"' ∧ scanText [] cs = some (content, rest) := by
  constructor
  · intro h
    unfold scanToken at h
    split at h
    case h_8 heq =>
      obtain ⟨out, hout, heq'⟩ := Option.map_eq_some_iff.mp h
      cases heq
      cases heq'
      exact ⟨rfl, hout⟩
    case h_9 | h_10 | h_11 | h_12 =>
      obtain ⟨_, -, heq⟩ := Option.map_eq_some_iff.mp h
      cases heq
    case h_13 => exact absurd h scanNumber_ne_text
    all_goals cases h
  · rintro ⟨rfl, h⟩
    rw [scanToken, h, Option.map_some]

/-- Blanks at the end are no token. -/
theorem scanTokens_of_blank {cs : List Char} (h : ∀ c ∈ cs, isBlank c) (most : ℕ)
    (done : List Token) : scanTokens most done cs = some done.reverse := by
  rw [scanTokens.eq_def]
  simp only [List.dropWhile_eq_nil_iff.mpr h]

/-- The tokens already read are kept, and where none follows there are only blanks. -/
theorem scanTokens_eq_some {most : ℕ} {done tokens : List Token} {cs : List Char}
    (h : scanTokens most done cs = some tokens) :
    ∃ more, tokens = done.reverse ++ more ∧ (more = [] → ∀ c ∈ cs, isBlank c) := by
  fun_induction scanTokens most done cs with
  | case1 _ done cs hblank =>
    cases h
    exact ⟨[], (List.append_nil _).symm, fun _ => List.dropWhile_eq_nil_iff.mp hblank⟩
  | case2 => cases h
  | case3 done cs c rest _ most token rest' _ ih =>
    obtain ⟨more, rfl, -⟩ := ih h
    exact ⟨token :: more, by simp, fun hnil => nomatch hnil⟩
  | case4 => cases h

/-- **Documents.** A document is a single token of text exactly when it is a string between
blanks. -/
theorem scan_eq_text_iff {document : String} {content : List Piece} :
    scan document = some [.text content] ↔
      ∃ body, Quotes document.toList body ∧ Pieces body content := by
  rw [scan]
  constructor
  · intro h
    obtain ⟨before, hbefore, hsplit⟩ : ∃ before, (∀ c ∈ before, isBlank c) ∧
        document.toList = before ++ document.toList.dropWhile isBlank :=
      ⟨_, fun _ => List.mem_takeWhile_imp, List.takeWhile_append_dropWhile.symm⟩
    -- The first token is a text and no token follows, so what is around it is blank.
    rw [scanTokens.eq_def] at h
    simp only at h
    split at h
    · cases h
    · next c cs hcs =>
      split at h
      · cases h
      · split at h
        · next token rest htoken =>
          obtain ⟨more, hmore, hblank⟩ := scanTokens_eq_some h
          obtain ⟨rfl, hnil⟩ := List.cons_eq_cons.mp hmore
          obtain ⟨rfl, htext⟩ := scanToken_eq_text_iff.mp htoken
          obtain ⟨body, ps, hp, rfl, rfl⟩ := scanText_eq_some_iff.mp htext
          exact ⟨body, ⟨before, rest, hbefore, hblank hnil.symm, by rw [hsplit, hcs]⟩, hp⟩
        · cases h
  · rintro ⟨body, ⟨before, after, hbefore, hafter, hcs⟩, hp⟩
    have htoken : scanToken ('"' :: (body ++ '"' :: after)) = some (.text content, after) :=
      scanToken_eq_text_iff.mpr ⟨rfl, scanText_eq_some_iff.mpr ⟨body, content, hp, rfl, rfl⟩⟩
    have hdrop : document.toList.dropWhile isBlank = '"' :: (body ++ '"' :: after) := by
      rw [hcs, List.dropWhile_append_of_pos hbefore, List.dropWhile_cons_of_neg (by decide)]
    obtain ⟨most, hmost⟩ : ∃ most, document.toList.length = most + 1 :=
      ⟨before.length + (body ++ '"' :: after).length, by rw [hcs, List.length_append]; rfl⟩
    rw [hmost, scanTokens.eq_def]
    simp only [hdrop, htoken, scanTokens_of_blank hafter]
    rfl

/-! ### Texts -/

/-- The documents that are strings scan to a single token, and the text that they write is that of
its content. -/
theorem isString_iff {document text : String} :
    IsString document text ↔
      ∃ content, scan document = some [.text content] ∧
        contentText? content = some text.toList := by
  simp only [IsString, spells_iff, scan_eq_text_iff]
  constructor
  · rintro ⟨body, hquotes, content, hp, htext⟩
    exact ⟨content, ⟨body, hquotes, hp⟩, htext⟩
  · rintro ⟨content, ⟨body, hquotes, hp⟩, htext⟩
    exact ⟨body, hquotes, content, hp, htext⟩

/-- A text of characters that may stand for themselves is written as it is. -/
theorem spells_self {text : List Char} (h : ∀ c ∈ text, IsPlain c) : Spells text text := by
  induction text with
  | nil => exact .nil
  | cons c text ih =>
    exact .plain (h c List.mem_cons_self) (ih fun d hd => h d (List.mem_cons_of_mem _ hd))

/-- Quoting such a text makes a document of it. -/
theorem isString_quote {text : String} (h : Spells text.toList text.toList) :
    IsString (quote text) text :=
  ⟨text.toList, ⟨[], [], by simp, by simp, by simp [quote]⟩, h⟩

/-- Blanks around a document change nothing. -/
theorem IsString.between_blanks {document text before after : String} (h : IsString document text)
    (hbefore : ∀ c ∈ before.toList, isBlank c) (hafter : ∀ c ∈ after.toList, isBlank c) :
    IsString (before ++ document ++ after) text := by
  obtain ⟨body, ⟨left, right, hleft, hright, hdocument⟩, hspells⟩ := h
  refine ⟨body, ⟨before.toList ++ left, right ++ after.toList,
    List.forall_mem_append.mpr ⟨hbefore, hleft⟩, List.forall_mem_append.mpr ⟨hright, hafter⟩, ?_⟩,
    hspells⟩
  simp [hdocument]

end ConfidentialCoin.Json
