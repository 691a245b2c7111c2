import Mathlib.Data.List.Basic
import Tunnel.Lib.Codec

/-!
# Texts, by lines and by fields

A text is a list of characters, and a file holds it in UTF-8. The readers are those of a Python script: a file in text
mode, where `\r\n` and `\r` are line ends too (`universalNewlines`), `readline`, which returns a line with its end, and
`int`. A line is taken apart by `List.splitOn`: a field does not hold the separator (`mem_splitOn`).
-/

namespace Lib

abbrev Text := List Char

/-- The characters of a string. -/
def chars (s : String) : Text := s.toList

/-! ## UTF-8 -/

/-- The bytes of a text in UTF-8. -/
def utf8 (t : Text) : Bytes := t.flatMap String.utf8EncodeChar

/-- The text that these bytes hold, if they are UTF-8. -/
def utf8Decode (b : Bytes) : Option Text := b.toByteArray.utf8Decode?.map Array.toList

theorem utf8_append (t t' : Text) : utf8 (t ++ t') = utf8 t ++ utf8 t' := List.flatMap_append

variable {α : Type} {t : Text} {c : Char}

theorem utf8_flatMap (f : α → Text) (l : List α) :
    utf8 (l.flatMap f) = l.flatMap (fun a => utf8 (f a)) := List.flatMap_assoc

/-- A text can be read back from its bytes. -/
theorem utf8Decode_utf8 (t : Text) : utf8Decode (utf8 t) = some t := by
  have h : (utf8 t).toByteArray.utf8Decode? = some t.toArray := List.utf8Decode?_utf8Encode
  rw [utf8Decode, h]
  rfl

/-! ## Lines -/

/-- A file as text: every line end becomes `\n`. -/
def universalNewlines : Text → Text
  | [] => []
  | '\r' :: '\n' :: t => '\n' :: universalNewlines t
  | '\r' :: t => '\n' :: universalNewlines t
  | c :: t => c :: universalNewlines t

/-- The next line with its line end, and what is left behind it. At the end of the text the line is empty. -/
def readline : Text → Text × Text
  | [] => ([], [])
  | c :: t => if c = '\n' then ([c], t) else (c :: (readline t).1, (readline t).2)

theorem universalNewlines_of_notMem (h : '\r' ∉ t) : universalNewlines t = t := by
  induction t with
  | nil => rfl
  | cons c t ih =>
    rw [List.mem_cons, not_or] at h
    have hc : c ≠ '\r' := Ne.symm h.1
    rw [universalNewlines, ih h.2]
    · intro t' hct _
      exact hc hct
    · exact hc

theorem notMem_universalNewlines (t : Text) : '\r' ∉ universalNewlines t := by
  fun_induction universalNewlines t with
  | case1 => exact List.not_mem_nil
  | case2 t ih => simpa using ih
  | case3 t _ ih => simpa using ih
  | case4 c t _ hc ih =>
    rw [List.mem_cons, not_or]
    exact ⟨Ne.symm hc, ih⟩

/-- A line is read. -/
theorem readline_append {l : Text} (h : '\n' ∉ l) (t : Text) : readline (l ++ '\n' :: t) = (l ++ ['\n'], t) := by
  induction l with
  | nil => rfl
  | cons c l ih =>
    rw [List.mem_cons, not_or] at h
    rw [List.cons_append, readline, if_neg (Ne.symm h.1), ih h.2]
    rfl

/-- A line and what is behind it are parts of the text. -/
theorem mem_readline (t : Text) : (c ∈ (readline t).1 → c ∈ t) ∧ (c ∈ (readline t).2 → c ∈ t) := by
  fun_induction readline t with
  | case1 => exact ⟨id, id⟩
  | case2 t => exact ⟨fun h => by simp_all, fun h => List.mem_cons_of_mem _ h⟩
  | case3 d t hd ih =>
    refine ⟨fun h => ?_, fun h => List.mem_cons_of_mem _ (ih.2 h)⟩
    rcases List.mem_cons.1 h with rfl | h
    · exact List.mem_cons_self
    · exact List.mem_cons_of_mem _ (ih.1 h)

/-! ## Fields -/

/-- A field is a part of the text, and the separator is not in it. -/
theorem mem_splitOn [DecidableEq α] {a : α} {t l : List α} (h : l ∈ t.splitOn a) : a ∉ l ∧ ∀ c ∈ l, c ∈ t := by
  induction t generalizing l with
  | nil =>
    rw [List.splitOn_nil, List.mem_singleton] at h
    subst h
    exact ⟨List.not_mem_nil, fun c hc => hc⟩
  | cons x t ih =>
    rw [List.splitOn_cons_eq_if_modifyHead] at h
    split at h
    · rcases List.mem_cons.1 h with rfl | h
      · exact ⟨List.not_mem_nil, fun c hc => absurd hc List.not_mem_nil⟩
      · exact ⟨(ih h).1, fun c hc => List.mem_cons_of_mem _ ((ih h).2 c hc)⟩
    · rename_i hx
      obtain ⟨first, rest, hsplit⟩ := List.exists_cons_of_ne_nil (List.splitOn_ne_nil a t)
      rw [hsplit] at h ih
      -- the first field has grown by one character, the others are as before
      rcases List.mem_cons.1 h with rfl | h
      · have hfirst := ih List.mem_cons_self
        refine ⟨fun ha => ?_, fun c hc => ?_⟩
        · rcases List.mem_cons.1 ha with rfl | ha
          · exact hx (beq_self_eq_true _)
          · exact hfirst.1 ha
        · rcases List.mem_cons.1 hc with rfl | hc
          · exact List.mem_cons_self
          · exact List.mem_cons_of_mem _ (hfirst.2 c hc)
      · have hother := ih (List.mem_cons_of_mem _ h)
        exact ⟨hother.1, fun c hc => List.mem_cons_of_mem _ (hother.2 c hc)⟩

/-- Fields with a separator behind each of them: behind the last separator there is an empty field. -/
theorem splitOn_flatMap {β : Type} [DecidableEq α] {a : α} {f : β → List α} (h : ∀ b, a ∉ f b) (l : List β) :
    (l.flatMap (fun b => f b ++ [a])).splitOn a = l.map f ++ [[]] := by
  induction l with
  | nil => exact List.splitOn_nil a
  | cons b l ih =>
    rw [List.flatMap_cons, List.append_assoc, List.singleton_append, List.splitOn_append_cons_self_of_not_mem (h b), ih]
    rfl

/-! ## Numbers -/

/-- A number in decimal. -/
def decimal (n : Nat) : Text := Nat.toDigits 10 n

/-- A number is written in digits. -/
theorem isDigit_of_mem_decimal {n : Nat} (h : c ∈ decimal n) : c.isDigit = true :=
  Nat.isDigit_of_mem_toDigits (by decide) (by decide) h

theorem notMem_decimal (hc : c.isDigit = false) (n : Nat) : c ∉ decimal n := by
  intro h
  rw [isDigit_of_mem_decimal h] at hc
  cases hc

theorem decimal_ne_nil (n : Nat) : decimal n ≠ [] := Nat.toDigits_ne_nil

theorem decimal_injective : Function.Injective decimal := by
  intro m n h
  have hm : Nat.ofDigitChars 10 (decimal m) 0 = m := Nat.ofDigitChars_ten_toDigits
  rw [← hm, h]
  exact Nat.ofDigitChars_ten_toDigits

/-- The white space of ASCII. -/
def isSpace (c : Char) : Bool := c ∈ [' ', '\t', '\n', '\x0b', '\x0c', '\r']

/-- The text without the white space around it. -/
def strip (t : Text) : Text := ((t.dropWhile isSpace).reverse.dropWhile isSpace).reverse

/-- Digits, with single underscores between them if need be. Of the digits of Unicode these are the ones of ASCII. -/
def parseDigits (t : Text) : Option Nat :=
  let groups := t.splitOn '_'
  if groups.all (fun g => !g.isEmpty && g.all Char.isDigit) then some (Nat.ofDigitChars 10 groups.flatten 0) else none

/-- The sign in front of the digits. -/
def parseSigned (t : Text) : Option Int :=
  match t with
  | '-' :: t => (parseDigits t).map (fun n => -(n : Int))
  | '+' :: t => (parseDigits t).map (fun n => (n : Int))
  | t => (parseDigits t).map (fun n => (n : Int))

/-- `int` of a text, if it is a number. -/
def parseInt (t : Text) : Option Int := parseSigned (strip t)

/-- A number is read back. -/
theorem parseDigits_decimal (n : Nat) : parseDigits (decimal n) = some n := by
  have hsplit : (decimal n).splitOn '_' = [decimal n] := List.splitOn_eq_singleton (notMem_decimal (by decide) n)
  have hdigits : (decimal n).all Char.isDigit = true := List.all_eq_true.2 (fun c hc => isDigit_of_mem_decimal hc)
  have hne : (decimal n).isEmpty = false := List.isEmpty_eq_false_iff.2 (decimal_ne_nil n)
  have hvalue : Nat.ofDigitChars 10 (decimal n) 0 = n := Nat.ofDigitChars_ten_toDigits
  simp [parseDigits, hsplit, hdigits, hne, hvalue]

/-- A decimal has no sign in front. -/
theorem parseSigned_decimal (n : Nat) : parseSigned (decimal n) = some (n : Int) := by
  have hparse := parseDigits_decimal n
  have hminus : '-' ∉ decimal n := notMem_decimal (by decide) n
  have hplus : '+' ∉ decimal n := notMem_decimal (by decide) n
  unfold parseSigned
  split
  · rename_i t ht
    rw [ht] at hminus
    exact absurd List.mem_cons_self hminus
  · rename_i t ht
    rw [ht] at hplus
    exact absurd List.mem_cons_self hplus
  · rw [hparse]
    rfl

theorem isSpace_of_isDigit (h : c.isDigit = true) : isSpace c = false := by
  refine decide_eq_false (fun hc => ?_)
  simp only [List.mem_cons, List.not_mem_nil, or_false] at hc
  rcases hc with rfl | rfl | rfl | rfl | rfl | rfl <;> cases h

theorem dropWhile_isSpace (h : ∀ c ∈ t, isSpace c = false) : t.dropWhile isSpace = t := by
  cases t with
  | nil => rfl
  | cons c t => rw [List.dropWhile_cons_of_neg (by simp [h c List.mem_cons_self])]

/-- White space behind the text. -/
theorem strip_append (h : ∀ c ∈ t, isSpace c = false) (hne : t ≠ []) (hc : isSpace c = true) :
    strip (t ++ [c]) = t := by
  obtain ⟨d, t, rfl⟩ := List.exists_cons_of_ne_nil hne
  have hfront : (d :: t ++ [c]).dropWhile isSpace = d :: t ++ [c] := by
    rw [List.cons_append, List.dropWhile_cons_of_neg (by simp [h d List.mem_cons_self])]
  have hback : (d :: t).reverse.dropWhile isSpace = (d :: t).reverse :=
    dropWhile_isSpace (fun e he => h e (List.mem_reverse.1 he))
  rw [strip, hfront, List.reverse_append, List.reverse_singleton, List.singleton_append, List.dropWhile_cons_of_pos hc,
    hback, List.reverse_reverse]

/-- A decimal at the end of a line. -/
theorem parseInt_decimal (n : Nat) : parseInt (decimal n ++ ['\n']) = some (n : Int) := by
  have hspace : ∀ c ∈ decimal n, isSpace c = false := fun c hc => isSpace_of_isDigit (isDigit_of_mem_decimal hc)
  rw [parseInt, strip_append hspace (decimal_ne_nil n) (by decide), parseSigned_decimal]

end Lib
