import Desugar.Json.Reader
import Desugar.Json.Writer

/-!
# Reading what was written

A value without parts that no text can hold is read back from its indented text.
The one thing that changes is the mark of a name that has to be spelled with an
escape, since it is the text that sets it.

The argument follows the two automata of the reader.  The scanner cuts the text
of a value into the tokens of the value, whatever comes next, as long as it does
not continue a numeral or a word.  The assembler makes the value again from its
tokens, whatever arrays and objects are open.
-/

namespace Desugar
namespace Json

/-!
## Values and their tokens
-/

mutual

def Writable : Json → Prop
  | .null => True
  | .bool _ => True
  | .num (.int _) => True
  | .num (.other _) => False
  | .str _ => True
  | .arr items => WritableItems items
  | .object members => WritableMembers members
  | .unreadable => False

def WritableItems : List Json → Prop
  | [] => True
  | value :: rest => value.Writable ∧ WritableItems rest

def WritableMembers : List (Key × Json) → Prop
  | [] => True
  | (_, value) :: rest => value.Writable ∧ WritableMembers rest

end

def spelledKey (name : String) : Key :=
  ⟨name, name.toList.any (fun c => escapeChar c ≠ [c])⟩

mutual

def respelled : Json → Json
  | .arr items => .arr (respelledItems items)
  | .object members => .object (respelledMembers members)
  | value => value

def respelledItems : List Json → List Json
  | [] => []
  | value :: rest => value.respelled :: respelledItems rest

def respelledMembers : List (Key × Json) → List (Key × Json)
  | [] => []
  | (name, value) :: rest => (spelledKey name.text, value.respelled) :: respelledMembers rest

end

mutual

def tokens : Json → List Token
  | .null => [.scalar .null]
  | .bool value => [.scalar (.bool value)]
  | .num value => [.scalar (.num value)]
  | .str value => [.text (some (spelledKey value))]
  | .arr items => .arrOpen :: (itemTokens items ++ [.arrClose])
  | .object members => .objOpen :: (memberTokens members ++ [.objClose])
  | .unreadable => [.scalar .null]

def itemTokens : List Json → List Token
  | [] => []
  | [value] => value.tokens
  | value :: next :: rest => value.tokens ++ .comma :: itemTokens (next :: rest)

def memberTokens : List (Key × Json) → List Token
  | [] => []
  | [(name, value)] => .text (some (spelledKey name.text)) :: .colon :: value.tokens
  | (name, value) :: next :: rest =>
    .text (some (spelledKey name.text)) :: .colon ::
      (value.tokens ++ .comma :: memberTokens (next :: rest))

end

/-!
## Scanning

A text is scanned into tokens when the scanner, wherever it is between two
tokens, completes just them on the way through the text.
-/

def Delimited (rest : List Char) : Prop :=
  ∀ c ∈ rest.head?, isNumeralChar c = false ∧ isWordChar c = false

/-- A text whose first character does not continue a numeral or a word. -/
def Opens (text : List Char) : Prop :=
  ∃ c more, text = c :: more ∧ isNumeralChar c = false ∧ isWordChar c = false

def Scans (text : List Char) (tokens : List Token) : Prop :=
  ∀ (done : List Token) (rest : List Char), Delimited rest →
    scanAll .between done (text ++ rest) = scanAll .between (tokens.reverse ++ done) rest

theorem scanAll_cons {state next : Scan} {c : Char} {found : List Token}
    (h : scan state c = some (next, found)) (done : List Token) (rest : List Char) :
    scanAll state done (c :: rest) = scanAll next (found.reverse ++ done) rest := by
  rw [scanAll, h]

namespace Scans

theorem nil : Scans [] [] :=
  fun _ _ _ => rfl

theorem append {text text' : List Char} {tokens tokens' : List Token} (h : Scans text tokens)
    (h' : Scans text' tokens') (hnext : Opens text') :
    Scans (text ++ text') (tokens ++ tokens') := by
  intro done rest hrest
  obtain ⟨c, more, rfl, hc⟩ := hnext
  have hdelimited : Delimited (c :: more ++ rest) := by
    intro d hd
    cases hd
    exact hc
  rw [List.append_assoc, h done _ hdelimited, h' _ rest hrest, List.reverse_append,
    List.append_assoc]

theorem cons {tokens : List Token} {text : List Char} (h : Scans text tokens) (c : Char)
    (found : List Token) (hc : scanBetween c = some (.between, found)) :
    Scans (c :: text) (found ++ tokens) := by
  intro done rest hrest
  rw [List.cons_append, scanAll_cons (show scan .between c = _ from hc), h _ rest hrest,
    List.reverse_append, List.append_assoc]

end Scans

/-!
### Words and numerals

Only the next character shows where a word or a numeral ends.
-/

/-- A state of the scanner in the middle of a token, the characters that continue
the token, and the value that it stands for. -/
structure Continues (state : List Char → Scan) (isPart : Char → Bool)
    (read : List Char → Option Json) : Prop where
  go : ∀ (text : List Char) (c : Char), isPart c = true →
    scan (state text) c = some (state (c :: text), [])
  stop : ∀ (text : List Char) (c : Char) (value : Json), isPart c = false →
    read text.reverse = some value →
    scan (state text) c = (scanBetween c).map (fun found => (found.1, .scalar value :: found.2))
  finish : ∀ (text : List Char) (value : Json), read text.reverse = some value →
    scanEnd (state text) = some [.scalar value]

theorem continues_word : Continues .word isWordChar readWord where
  go text c hc := by simp [scan, hc]
  stop text c value hc hvalue := by
    simp only [scan, hc, hvalue]
    cases scanBetween c <;> rfl
  finish text value hvalue := by simp [scanEnd, hvalue]

theorem continues_numeral :
    Continues .numeral isNumeralChar (fun text => (readNumeral text).map .num) where
  go text c hc := by simp [scan, hc]
  stop text c value hc hvalue := by
    obtain ⟨number, hnumber, rfl⟩ := Option.map_eq_some_iff.mp hvalue
    simp only [scan, hc, hnumber]
    cases scanBetween c <;> rfl
  finish text value hvalue := by
    obtain ⟨number, hnumber, rfl⟩ := Option.map_eq_some_iff.mp hvalue
    simp [scanEnd, hnumber]

namespace Continues

variable {state : List Char → Scan} {isPart : Char → Bool} {read : List Char → Option Json}

theorem scanAll_go (h : Continues state isPart read) {text more : List Char}
    (hmore : ∀ c ∈ more, isPart c = true) (done : List Token) (rest : List Char) :
    scanAll (state text) done (more ++ rest) =
      scanAll (state (more.reverse ++ text)) done rest := by
  induction more generalizing text with
  | nil => rfl
  | cons c more ih =>
    rw [List.cons_append, scanAll_cons (h.go text c (hmore c (.head _))), List.reverse_nil,
      List.nil_append, ih fun d hd => hmore d (.tail _ hd), List.reverse_cons,
      List.append_assoc]
    rfl

theorem scanAll_stop (h : Continues state isPart read) {text : List Char} {value : Json}
    (hvalue : read text.reverse = some value) (done : List Token) {rest : List Char}
    (hrest : ∀ c ∈ rest.head?, isPart c = false) :
    scanAll (state text) done rest = scanAll .between (.scalar value :: done) rest := by
  cases rest with
  | nil =>
    have hbetween : scanEnd .between = some [] := rfl
    simp [scanAll, h.finish text value hvalue, hbetween]
  | cons c rest =>
    have hbetween : scan .between c = scanBetween c := rfl
    rw [scanAll, scanAll, h.stop text c value (hrest c rfl) hvalue, hbetween]
    cases scanBetween c with
    | none => rfl
    | some found => simp

theorem scans (h : Continues state isPart read)
    (hends : ∀ rest, Delimited rest → ∀ c ∈ rest.head?, isPart c = false) {c : Char}
    {more : List Char} {value : Json} (hfirst : scanBetween c = some (state [c], []))
    (hmore : ∀ d ∈ more, isPart d = true) (hvalue : read (c :: more) = some value) :
    Scans (c :: more) [.scalar value] := by
  intro done rest hrest
  have hread : read (more.reverse ++ [c]).reverse = some value := by
    rw [List.reverse_append, List.reverse_reverse]
    exact hvalue
  rw [List.cons_append, scanAll_cons (show scan .between c = _ from hfirst), h.scanAll_go hmore,
    h.scanAll_stop hread _ (hends rest hrest)]
  rfl

end Continues

theorem scans_word {c : Char} {more : List Char} {value : Json}
    (hfirst : scanBetween c = some (.word [c], [])) (hmore : more.all isWordChar = true)
    (hvalue : readWord (c :: more) = some value) : Scans (c :: more) [.scalar value] :=
  continues_word.scans (fun _ hrest c hc => (hrest c hc).2) hfirst (List.all_eq_true.mp hmore)
    hvalue

/-!
### Decimal digits
-/

theorem isDecimal_eq_isDigit (c : Char) : isDecimal c = c.isDigit := by
  simp [isDecimal, Char.isDigit, Char.le_def]

theorem isDecimal_of_mem_toDigits {n : Nat} {c : Char} (h : c ∈ Nat.toDigits 10 n) :
    isDecimal c = true := by
  rw [isDecimal_eq_isDigit]
  exact Nat.isDigit_of_mem_toDigits (by decide) (by decide) h

theorem decimalValue_toDigits (n : Nat) : decimalValue (Nat.toDigits 10 n) = n :=
  Nat.ofDigitChars_ten_toDigits

theorem toDigits_eq_cons {n : Nat} (h : 0 < n) :
    ∃ c more, Nat.toDigits 10 n = c :: more ∧ c ≠ '0' := by
  induction n using Nat.base_induction 10 (by decide) with
  | single m hm =>
    refine ⟨m.digitChar, [], Nat.toDigits_of_lt_base hm, ?_⟩
    intro hzero
    have := Nat.digitChar_eq_zero.mp hzero
    omega
  | digit m k hk hm ih =>
    obtain ⟨c, more, hdigits, hc⟩ := ih hm
    refine ⟨c, more ++ Nat.toDigits 10 k, ?_, hc⟩
    rw [← Nat.toDigits_append_toDigits (by decide) hm hk, hdigits, List.cons_append]

theorem isIntegerPart_toDigits (n : Nat) : isIntegerPart (Nat.toDigits 10 n) = true := by
  rcases Nat.eq_zero_or_pos n with rfl | hpos
  · rw [Nat.toDigits_zero]
    rfl
  · obtain ⟨c, more, hdigits, hc⟩ := toDigits_eq_cons hpos
    rw [hdigits]
    cases more with
    | nil => rfl
    | cons d more => simp [isIntegerPart, hc]

theorem takeWhile_toDigits (n : Nat) :
    (Nat.toDigits 10 n).takeWhile isDecimal = Nat.toDigits 10 n ∧
      (Nat.toDigits 10 n).dropWhile isDecimal = [] := by
  have hall : ∀ c ∈ Nat.toDigits 10 n, isDecimal c = true :=
    fun _ hc => isDecimal_of_mem_toDigits hc
  have htake : (Nat.toDigits 10 n ++ []).takeWhile isDecimal = Nat.toDigits 10 n ++ [] :=
    List.takeWhile_append_of_pos hall
  have hdrop : (Nat.toDigits 10 n ++ []).dropWhile isDecimal = [] :=
    List.dropWhile_append_of_pos hall
  rw [List.append_nil] at htake hdrop
  exact ⟨htake, hdrop⟩

theorem readNumeral_toDigits (n : Nat) :
    readNumeral (Nat.toDigits 10 n) = some (.int n) := by
  obtain ⟨c, more, hdigits⟩ : ∃ c more, Nat.toDigits 10 n = c :: more :=
    List.exists_cons_of_ne_nil Nat.toDigits_ne_nil
  have hsign : ((Nat.toDigits 10 n).head? == some '-') = false := by
    have hc : isDecimal c = true := isDecimal_of_mem_toDigits (hdigits ▸ List.mem_cons_self)
    rw [hdigits]
    apply beq_false_of_ne
    rintro heq
    cases heq
    cases hc
  simp [readNumeral, hsign, (takeWhile_toDigits n).1, (takeWhile_toDigits n).2,
    isIntegerPart_toDigits, isNumeralTail, decimalValue_toDigits]

theorem readNumeral_neg_toDigits {n : Nat} (h : 0 < n) :
    readNumeral ('-' :: Nat.toDigits 10 n) = some (.int (-n)) := by
  have hn : n ≠ 0 := Nat.ne_of_gt h
  simp [readNumeral, (takeWhile_toDigits n).1, (takeWhile_toDigits n).2, isIntegerPart_toDigits,
    isNumeralTail, decimalValue_toDigits, hn]

theorem scanBetween_decimal {c : Char} (h : isDecimal c = true) :
    scanBetween c = some (.numeral [c], []) := by
  have hne : ∀ d : Char, isDecimal d = false → c ≠ d := by
    rintro d hd rfl
    rw [h] at hd
    cases hd
  simp [scanBetween, isBlank, h, hne ' ' rfl, hne '\n' rfl, hne '\r' rfl, hne '\t' rfl,
    hne '[' rfl, hne ']' rfl, hne '\x7b' rfl, hne '\x7d' rfl, hne ':' rfl, hne ',' rfl,
    hne '"' rfl]

theorem isNumeralChar_of_isDecimal {c : Char} (h : isDecimal c = true) :
    isNumeralChar c = true := by
  simp [isNumeralChar, h]

theorem scans_int (value : Int) : Scans (toString value).toList [.scalar (.num (.int value))] := by
  have hends : ∀ rest, Delimited rest → ∀ c ∈ rest.head?, isNumeralChar c = false :=
    fun _ hrest c hc => (hrest c hc).1
  have hdigits : ∀ n, ∀ c ∈ Nat.toDigits 10 n, isNumeralChar c = true :=
    fun n c hc => isNumeralChar_of_isDecimal (isDecimal_of_mem_toDigits hc)
  cases value with
  | ofNat n =>
    have htext : (toString (Int.ofNat n)).toList = Nat.toDigits 10 n := Nat.toList_repr
    obtain ⟨c, more, hcons⟩ : ∃ c more, Nat.toDigits 10 n = c :: more :=
      List.exists_cons_of_ne_nil Nat.toDigits_ne_nil
    have hread := readNumeral_toDigits n
    have hparts := hdigits n
    have hc : isDecimal c = true := isDecimal_of_mem_toDigits (hcons ▸ List.mem_cons_self)
    rw [htext]
    rw [hcons] at hread hparts ⊢
    exact continues_numeral.scans hends (scanBetween_decimal hc)
      (fun d hd => hparts d (.tail _ hd)) (congrArg (Option.map Json.num) hread)
  | negSucc n =>
    have htext : (toString (Int.negSucc n)).toList = '-' :: Nat.toDigits 10 (n + 1) := by
      show ("-" ++ (n + 1).repr).toList = _
      rw [String.toList_append, Nat.toList_repr]
      rfl
    rw [htext]
    exact continues_numeral.scans hends rfl (hdigits (n + 1))
      (congrArg (Option.map Json.num) (readNumeral_neg_toDigits (Nat.succ_pos n)))

/-!
### Strings

Each character of a string adds itself to the draft, and marks it when it is
written as an escape.
-/

theorem hexValue?_hexDigit : ∀ n < 16, hexValue? (hexDigit n) = some n := by
  decide

theorem scanAll_hex {c : Char} (h : c.toNat < 32) (draft : Draft) (done : List Token)
    (rest : List Char) :
    scanAll (.hex draft 4 0 none) done
        ('0' :: '0' :: hexDigit (c.toNat / 16) :: hexDigit (c.toNat % 16) :: rest) =
      scanAll (.string (draft.push c)) done rest := by
  have hzero : hexValue? '0' = some 0 := rfl
  have hhigh := hexValue?_hexDigit (c.toNat / 16) (by omega)
  have hlow := hexValue?_hexDigit (c.toNat % 16) (by omega)
  have hvalue : 16 * (c.toNat / 16) + c.toNat % 16 = c.toNat := Nat.div_add_mod c.toNat 16
  have hlead : isLead c.toNat = false := by simp [isLead]; omega
  have htrail : isTrail c.toNat = false := by simp [isTrail]; omega
  simp [scanAll, scan, hzero, hhigh, hlow, hvalue, closeHex, hlead, htrail]

theorem escapeChar_cases (c : Char) :
    (∃ mark, escapeChar c = ['\\', mark] ∧
        ∀ draft, scanEscape draft mark = some (.string (draft.push c))) ∨
      (c.toNat < 32 ∧ escapeChar c =
        ['\\', 'u', '0', '0', hexDigit (c.toNat / 16), hexDigit (c.toNat % 16)]) ∨
      (escapeChar c = [c] ∧ c ≠ '"' ∧ c ≠ '\\' ∧ ¬c.toNat < 32) := by
  have hcode (n : Nat) (h : c.toNat = n) : c = Char.ofNat n := by
    rw [← h, Char.ofNat_toNat]
  unfold escapeChar
  split
  · subst c; exact .inl ⟨'"', rfl, fun _ => rfl⟩
  split
  · subst c; exact .inl ⟨'\\', rfl, fun _ => rfl⟩
  split
  · subst c; exact .inl ⟨'n', rfl, fun _ => rfl⟩
  split
  · subst c; exact .inl ⟨'r', rfl, fun _ => rfl⟩
  split
  · subst c; exact .inl ⟨'t', rfl, fun _ => rfl⟩
  split
  next h => exact .inl ⟨'b', rfl, fun _ => by rw [hcode 8 h]; rfl⟩
  split
  next h => exact .inl ⟨'f', rfl, fun _ => by rw [hcode 12 h]; rfl⟩
  split
  next h => exact .inr (.inl ⟨h, rfl⟩)
  next hquote hslash _ _ _ _ _ h => exact .inr (.inr ⟨rfl, hquote, hslash, h⟩)

theorem scanAll_escapeChar (draft : Draft) (done : List Token) (c : Char) (rest : List Char) :
    scanAll (.string draft) done (escapeChar c ++ rest) =
      scanAll (.string ⟨c :: draft.chars, draft.escaped || decide (escapeChar c ≠ [c]),
        draft.broken⟩) done rest := by
  have hslash (draft : Draft) :
      scan (.string draft) '\\' = some (.escape { draft with escaped := true }, []) := rfl
  obtain ⟨mark, hc, hmark⟩ | ⟨hlow, hc⟩ | ⟨hc, hquote, hplain, hlow⟩ := escapeChar_cases c
  · have hstep (draft : Draft) : scan (.escape draft) mark = some (.string (draft.push c), []) := by
      simp [scan, hmark]
    rw [hc, List.cons_append, scanAll_cons (hslash draft), List.cons_append,
      scanAll_cons (hstep _)]
    simp [Draft.push]
  · have hstep (draft : Draft) : scan (.escape draft) 'u' = some (.hex draft 4 0 none, []) := rfl
    rw [hc, List.cons_append, scanAll_cons (hslash draft), List.cons_append,
      scanAll_cons (hstep _)]
    simp [scanAll_hex hlow, Draft.push]
  · have hstep : scan (.string draft) c = some (.string (draft.push c), []) := by
      simp [scan, scanString, hquote, hplain, hlow]
    rw [hc, List.cons_append, scanAll_cons hstep]
    simp [Draft.push]

theorem scanAll_string (text : List Char) (draft : Draft) (done : List Token)
    (rest : List Char) :
    scanAll (.string draft) done (text.flatMap escapeChar ++ rest) =
      scanAll (.string ⟨text.reverse ++ draft.chars,
        draft.escaped || text.any (fun c => escapeChar c ≠ [c]), draft.broken⟩) done rest := by
  induction text generalizing draft with
  | nil => simp
  | cons c text ih =>
    rw [List.flatMap_cons, List.append_assoc, scanAll_escapeChar, ih]
    simp [Bool.or_assoc]

theorem scans_quote (name : String) :
    Scans (quote name).toList [.text (some (spelledKey name))] := by
  intro done rest _
  have hopen : scan .between '"' = some (.string {}, []) := rfl
  have hclose (draft : Draft) : scan (.string draft) '"' = some (.between, [.text draft.content]) :=
    rfl
  rw [quote, String.toList_ofList, List.cons_append, scanAll_cons hopen, List.append_assoc,
    scanAll_string, List.singleton_append, scanAll_cons (hclose _)]
  simp [Draft.content, spelledKey]

/-!
### Values
-/

theorem opens_newline (indent : Nat) (text : List Char) :
    Opens ((newline indent).toList ++ text) := by
  refine ⟨'\n', List.replicate (2 * indent) ' ' ++ text, ?_, rfl, rfl⟩
  simp [newline]

theorem Scans.newline {text : List Char} {tokens : List Token} (h : Scans text tokens)
    (indent : Nat) : Scans ((newline indent).toList ++ text) tokens := by
  have hblanks : ∀ n, Scans (List.replicate n ' ' ++ text) tokens := by
    intro n
    induction n with
    | zero => exact h
    | succ n ih => exact ih.cons ' ' [] rfl
  have htext : (Json.newline indent).toList = '\n' :: List.replicate (2 * indent) ' ' := by
    simp [Json.newline]
  rw [htext]
  exact (hblanks _).cons '\n' [] rfl

theorem scans_close {c : Char} {token : Token} (h : scanBetween c = some (.between, [token]))
    (indent : Nat) : Scans ((newline indent).toList ++ [c]) [token] :=
  (Scans.nil.cons c [token] h).newline indent

theorem Scans.member {text : List Char} {tokens : List Token} (h : Scans text tokens)
    (name : String) :
    Scans ((quote name).toList ++ ':' :: ' ' :: text)
      (.text (some (spelledKey name)) :: .colon :: tokens) :=
  (scans_quote name).append ((h.cons ' ' [] rfl).cons ':' [.colon] rfl) ⟨':', _, rfl, rfl, rfl⟩

mutual

theorem scans_prettyAt (indent : Nat) :
    ∀ value : Json, value.Writable → Scans (prettyAt indent value).toList value.tokens
  | .null, _ => by simpa [prettyAt, tokens] using scans_word (c := 'n') rfl (by decide) rfl
  | .bool true, _ => by simpa [prettyAt, tokens] using scans_word (c := 't') rfl (by decide) rfl
  | .bool false, _ => by simpa [prettyAt, tokens] using scans_word (c := 'f') rfl (by decide) rfl
  | .num (.int value), _ => scans_int value
  | .str value, _ => scans_quote value
  | .arr items, h => by
      have hitems := scans_prettyItems (indent + 1) items h
      cases items with
      | nil =>
        have hall := (Scans.nil.cons ']' [.arrClose] rfl).cons '[' [.arrOpen] rfl
        simpa [prettyAt, tokens, itemTokens] using hall
      | cons value rest =>
        have hbody := (hitems (List.cons_ne_nil _ _)).append
          (scans_close (c := ']') rfl indent) (opens_newline indent _)
        simpa [prettyAt, tokens] using hbody.cons '[' [.arrOpen] rfl
  | .object members, h => by
      have hmembers := scans_prettyMembers (indent + 1) members h
      cases members with
      | nil =>
        have hall := (Scans.nil.cons '\x7d' [.objClose] rfl).cons '\x7b' [.objOpen] rfl
        simpa [prettyAt, tokens, memberTokens] using hall
      | cons member rest =>
        have hbody := (hmembers (List.cons_ne_nil _ _)).append
          (scans_close (c := '\x7d') rfl indent) (opens_newline indent _)
        simpa [prettyAt, tokens] using hbody.cons '\x7b' [.objOpen] rfl

theorem scans_prettyItems (indent : Nat) :
    ∀ items : List Json, WritableItems items → items ≠ [] →
      Scans (prettyItems indent items).toList (itemTokens items)
  | [], _, hne => absurd rfl hne
  | [value], h, _ => by
      have hvalue := (scans_prettyAt indent value h.1).newline indent
      simpa [prettyItems, itemTokens] using hvalue
  | value :: next :: rest, h, _ => by
      have hrest := scans_prettyItems indent (next :: rest) h.2 (List.cons_ne_nil _ _)
      have hvalue := (scans_prettyAt indent value h.1).append (hrest.cons ',' [.comma] rfl)
        ⟨',', _, rfl, rfl, rfl⟩
      simpa [prettyItems, itemTokens] using hvalue.newline indent

theorem scans_prettyMembers (indent : Nat) :
    ∀ members : List (Key × Json), WritableMembers members → members ≠ [] →
      Scans (prettyMembers indent members).toList (memberTokens members)
  | [], _, hne => absurd rfl hne
  | [(name, value)], h, _ => by
      have hvalue := (scans_prettyAt indent value h.1).member name.text
      simpa [prettyMembers, memberTokens] using hvalue.newline indent
  | (name, value) :: next :: rest, h, _ => by
      have hrest := scans_prettyMembers indent (next :: rest) h.2 (List.cons_ne_nil _ _)
      have hvalue := (scans_prettyAt indent value h.1).append (hrest.cons ',' [.comma] rfl)
        ⟨',', _, rfl, rfl, rfl⟩
      simpa [prettyMembers, memberTokens] using (hvalue.member name.text).newline indent

end

theorem tokens?_pretty {value : Json} (h : value.Writable) :
    tokens? value.pretty = some value.tokens := by
  have hscan := scans_prettyAt 0 value h [] [] (by intro c hc; cases hc)
  rw [List.append_nil] at hscan
  rw [tokens?, pretty, hscan]
  simp [scanAll, scanEnd]

/-!
## Assembling
-/

theorem assembleAll_append (state : Assembly) (tokens tokens' : List Token) :
    assembleAll state (tokens ++ tokens') =
      (assembleAll state tokens).bind (fun next => assembleAll next tokens') := by
  induction tokens generalizing state with
  | nil => rfl
  | cons token tokens ih =>
    rw [List.cons_append, assembleAll, assembleAll]
    cases assemble state token with
    | none => rfl
    | some next => exact ih next

theorem assembleAll_firstItem (value : Json) (stack : List Frame) (rest : List Token) :
    assembleAll (.firstItem stack) (value.tokens ++ rest) =
      assembleAll (.value (.arr [] :: stack)) (value.tokens ++ rest) := by
  cases value <;> rfl

def openMembers (members : List (Key × Json)) : List (Option Key × Json) :=
  members.reverse.map (fun member => (some member.1, member.2))

theorem openMembers_cons (member : Key × Json) (rest : List (Key × Json)) :
    openMembers (member :: rest) = openMembers rest ++ [(some member.1, member.2)] := by
  simp [openMembers]

theorem closeMembers_openMembers (members : List (Key × Json)) :
    closeMembers (openMembers members) = .object members := by
  have hread : (members.map fun member => ((some member.1 : Option Key), member.2)).mapM
      (fun member => member.1.map (fun name => (name, member.2))) = some members := by
    induction members with
    | nil => rfl
    | cons member rest ih => simp [ih]
  rw [closeMembers, openMembers, ← List.map_reverse, List.reverse_reverse, hread]

mutual

theorem assembleAll_tokens :
    ∀ (value : Json) (stack : List Frame), value.Writable →
      assembleAll (.value stack) value.tokens = some (.done value.respelled stack)
  | .null, _, _ => rfl
  | .bool _, _, _ => rfl
  | .num (.int _), _, _ => rfl
  | .str _, _, _ => rfl
  | .arr items, stack, h => by
      have hitems := assembleAll_itemTokens items [] stack h
      cases items with
      | nil => rfl
      | cons value rest =>
        rw [respelled, ← List.nil_append (respelledItems _), ← List.reverse_nil,
          ← hitems (List.cons_ne_nil _ _)]
        cases rest with
        | nil => exact assembleAll_firstItem value stack [.arrClose]
        | cons next rest =>
          rw [tokens, itemTokens, List.append_assoc]
          exact assembleAll_firstItem value stack _
  | .object members, stack, h => by
      have hmembers := assembleAll_memberTokens members [] stack h
      cases members with
      | nil => rfl
      | cons member rest =>
        rw [respelled, ← closeMembers_openMembers (respelledMembers _),
          ← List.append_nil (openMembers _), ← hmembers (List.cons_ne_nil _ _)]
        cases rest <;> rfl

theorem assembleAll_itemTokens :
    ∀ (items before : List Json) (stack : List Frame), WritableItems items → items ≠ [] →
      assembleAll (.value (.arr before :: stack)) (itemTokens items ++ [.arrClose]) =
        some (.done (.arr (before.reverse ++ respelledItems items)) stack)
  | [], _, _, _, hne => absurd rfl hne
  | [value], before, stack, h, _ => by
      rw [itemTokens, assembleAll_append, assembleAll_tokens value _ h.1]
      simp [assembleAll, assemble, respelledItems]
  | value :: next :: rest, before, stack, h, _ => by
      have hrest := assembleAll_itemTokens (next :: rest) (value.respelled :: before) stack h.2
        (List.cons_ne_nil _ _)
      rw [itemTokens, List.append_assoc, assembleAll_append, assembleAll_tokens value _ h.1]
      simpa [assembleAll, assemble, respelledItems] using hrest

theorem assembleAll_memberTokens :
    ∀ (members : List (Key × Json)) (before : List (Option Key × Json)) (stack : List Frame),
      WritableMembers members → members ≠ [] →
      assembleAll (.name before stack) (memberTokens members ++ [.objClose]) =
        some (.done (closeMembers (openMembers (respelledMembers members) ++ before)) stack)
  | [], _, _, _, hne => absurd rfl hne
  | [(name, value)], before, stack, h, _ => by
      rw [memberTokens, List.cons_append, List.cons_append]
      simp [assembleAll, assemble, assembleAll_append, assembleAll_tokens value _ h.1,
        respelledMembers, openMembers]
  | (name, value) :: next :: rest, before, stack, h, _ => by
      have hrest := assembleAll_memberTokens (next :: rest)
        ((some (spelledKey name.text), value.respelled) :: before) stack h.2
        (List.cons_ne_nil _ _)
      rw [memberTokens, respelledMembers, openMembers_cons, List.append_assoc]
      simpa [assembleAll, assemble, assembleAll_append, assembleAll_tokens value _ h.1] using hrest

end

theorem parse?_pretty {value : Json} (h : value.Writable) :
    parse? value.pretty = some value.respelled := by
  simp [parse?, tokens?_pretty h, assembleAll_tokens value [] h]

end Json
end Desugar
