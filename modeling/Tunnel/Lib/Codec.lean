import Mathlib.Algebra.Group.Nat.Defs
import Mathlib.Data.List.Basic
import Mathlib.Data.Nat.Basic

/-!
# Codecs of byte strings

Writers append to a byte string, readers read a view from an offset on. A codec is lawful when its writer appends an
encoding and its reader accepts exactly the encodings of valid values, wherever they stand in a view. The laws of a
record follow from those of its fields, since encodings stand one behind the other (`Holds.append`).
-/

namespace Lib

abbrev Bytes := List UInt8

/-! ## The bytes of a number -/

/-- The `w` low bytes of a number, the lowest first. -/
def toBytes : Nat → Nat → Bytes
  | 0, _ => []
  | w + 1, n => UInt8.ofNat n :: toBytes w (n / 256)

/-- The number with these bytes, the lowest first. -/
def ofBytes : Bytes → Nat
  | [] => 0
  | b :: bs => b.toNat + 256 * ofBytes bs

@[simp] theorem length_toBytes (w n : Nat) : (toBytes w n).length = w := by
  induction w generalizing n with
  | zero => rfl
  | succ w ih => rw [toBytes, List.length_cons, ih]

/-- A number is read back. -/
theorem ofBytes_toBytes {w n : Nat} (h : n < 256 ^ w) : ofBytes (toBytes w n) = n := by
  induction w generalizing n with
  | zero =>
    rw [Nat.pow_zero] at h
    exact (Nat.lt_one_iff.1 h).symm
  | succ w ih =>
    have hdiv : n / 256 < 256 ^ w := Nat.div_lt_of_lt_mul (by rwa [Nat.pow_succ'] at h)
    rw [toBytes, ofBytes, ih hdiv, UInt8.toNat_ofNat']
    exact Nat.mod_add_div n 256

/-- Bytes are written back. -/
theorem toBytes_ofBytes (bs : Bytes) : toBytes bs.length (ofBytes bs) = bs := by
  induction bs with
  | nil => rfl
  | cons b bs ih =>
    have hb : b.toNat < 256 := b.toNat_lt
    have hlow : UInt8.ofNat (b.toNat + 256 * ofBytes bs) = b := by
      apply UInt8.toNat_inj.1
      rw [UInt8.toNat_ofNat']
      omega
    have hhigh : (b.toNat + 256 * ofBytes bs) / 256 = ofBytes bs := by omega
    rw [List.length_cons, toBytes, ofBytes, hlow, hhigh, ih]

/-- So many bytes hold so much. -/
theorem ofBytes_lt (bs : Bytes) : ofBytes bs < 256 ^ bs.length := by
  induction bs with
  | nil => exact Nat.one_pos
  | cons b bs ih =>
    have hb : b.toNat < 256 := b.toNat_lt
    rw [ofBytes, List.length_cons, Nat.pow_succ']
    omega

/-! ## Where bytes stand -/

/-- The bytes `b` stand in the view from `o` to `o'`. -/
def Holds (view : Bytes) (o : Nat) (b : Bytes) (o' : Nat) :
    Prop := ∃ p s, view = p ++ b ++ s ∧ o = p.length ∧ o' = p.length + b.length

theorem holds_append (p b s : Bytes) : Holds (p ++ b ++ s) p.length b (p.length + b.length) := ⟨p, s, rfl, rfl, rfl⟩

/-- One behind the other. -/
theorem Holds.append {view : Bytes} {o o'' : Nat} {b c : Bytes} :
    Holds view o (b ++ c) o'' ↔ ∃ o', Holds view o b o' ∧ Holds view o' c o'' := by
  constructor
  · rintro ⟨p, s, hview, ho, ho''⟩
    refine ⟨p.length + b.length, ⟨p, c ++ s, by simp [hview], ho, rfl⟩, p ++ b, s, by simp [hview], by simp, ?_⟩
    simp only [List.length_append] at ho'' ⊢
    omega
  · rintro ⟨o', ⟨p, s, hview, ho, ho'⟩, p', s', hview', hp', ho''⟩
    -- the second begins where the first ends
    have hlen : p'.length = (p ++ b).length := by rw [List.length_append, ← hp', ho']
    have hsplit : p' ++ (c ++ s') = (p ++ b) ++ s := by rw [← hview, hview']; simp
    obtain ⟨rfl, rfl⟩ := List.append_inj hsplit hlen
    refine ⟨p, s', by simp [hview'], ho, ?_⟩
    simp only [List.length_append] at ho'' ⊢
    omega

/-- A view that is one block. -/
theorem holds_all {view b : Bytes} : Holds view 0 b view.length ↔ view = b := by
  constructor
  · rintro ⟨p, s, hview, hp, hlen⟩
    have hp0 : p = [] := List.length_eq_zero_iff.1 hp.symm
    subst hp0
    have hs : s = [] := by
      rw [hview] at hlen
      apply List.length_eq_zero_iff.1
      simp only [List.length_append, List.length_nil] at hlen
      omega
    simpa [hs] using hview
  · rintro rfl
    exact ⟨[], [], by simp, rfl, by simp⟩

/-! ## Readers -/

/-- A reader of a view from an offset on: what it read and the offset behind it, or what kept it from returning. -/
structure Reader (ε α : Type) where
  run : Bytes → Nat → Except ε (α × Nat)

namespace Reader

variable {ε α β : Type}

instance : Monad (Reader ε) where
  pure a := ⟨fun _ o => .ok (a, o)⟩
  bind x f := ⟨fun view o =>
    match x.run view o with
    | .ok (a, o') => (f a).run view o'
    | .error e => .error e⟩

/-- The reader does not return. -/
def fail (e : ε) : Reader ε α := ⟨fun _ _ => .error e⟩

/-- The view. -/
def whole : Reader ε Bytes := ⟨fun view o => .ok (view, o)⟩

/-- The next `n` bytes, all of them inside the view. -/
def take (outside : ε) (n : Nat) : Reader ε Bytes :=
  ⟨fun view o => if o + n ≤ view.length then .ok ((view.drop o).take n, o + n) else .error outside⟩

/-- The next byte. -/
def byte (outside : ε) : Reader ε UInt8 :=
  ⟨fun view o =>
    match view[o]? with
    | some b => .ok (b, o + 1)
    | none => .error outside⟩

variable {view : Bytes} {o o' : Nat} {e : ε}

@[simp] theorem pure_ok {a b : α} : (pure a : Reader ε α).run view o = .ok (b, o') ↔ a = b ∧ o = o' := by
  change Except.ok (a, o) = .ok (b, o') ↔ _
  simp

@[simp] theorem pure_error {a : α} : ¬(pure a : Reader ε α).run view o = .error e := nofun

@[simp] theorem fail_ok {e : ε} {a : α} : ¬(fail e : Reader ε α).run view o = .ok (a, o') := nofun

@[simp] theorem fail_error {e e' : ε} : (fail e : Reader ε α).run view o = .error e' ↔ e = e' := by
  change Except.error e = .error e' ↔ _
  simp

@[simp] theorem whole_ok {w : Bytes} : (whole : Reader ε Bytes).run view o = .ok (w, o') ↔ view = w ∧ o = o' := by
  change Except.ok (view, o) = .ok (w, o') ↔ _
  simp

@[simp] theorem whole_error : ¬(whole : Reader ε Bytes).run view o = .error e := nofun

/-- One reader after another. -/
theorem bind_ok {x : Reader ε α} {f : α → Reader ε β} {b : β} :
    (x >>= f).run view o = .ok (b, o') ↔ ∃ a o₁, x.run view o = .ok (a, o₁) ∧ (f a).run view o₁ = .ok (b, o') := by
  change (match x.run view o with
    | .ok (a, o') => (f a).run view o'
    | .error e => .error e) = _ ↔ _
  constructor
  · intro h
    split at h
    · rename_i a o₁ hx
      exact ⟨a, o₁, hx, h⟩
    · nomatch h
  · rintro ⟨a, o₁, hx, hf⟩
    rw [hx]
    exact hf

/-- Where a sequence of readers fails. -/
theorem bind_error {x : Reader ε α} {f : α → Reader ε β} :
    (x >>= f).run view o = .error e ↔ x.run view o = .error e ∨ ∃ a o₁, x.run view o = .ok (a, o₁) ∧
    (f a).run view o₁ = .error e := by
  change (match x.run view o with
    | .ok (a, o') => (f a).run view o'
    | .error e => .error e) = _ ↔ _
  split
  · rename_i a o₁ hx
    simp [hx]
  · rename_i e' hx
    simp [hx]

/-- When a block is there. -/
theorem take_ok {n : Nat} {b : Bytes} : (take e n).run view o = .ok (b, o') ↔ b.length = n ∧ Holds view o b o' := by
  simp only [take]
  constructor
  · intro h
    split at h
    · rename_i hle
      obtain ⟨rfl, rfl⟩ := Prod.mk.inj (Except.ok.inj h)
      have hlen : ((view.drop o).take n).length = n := by simp; omega
      refine ⟨hlen, view.take o, view.drop (o + n), ?_, ?_, ?_⟩
      · rw [List.append_assoc, ← List.drop_drop, List.take_append_drop, List.take_append_drop]
      · simp; omega
      · rw [hlen, List.length_take]; omega
    · nomatch h
  · rintro ⟨rfl, p, s, rfl, rfl, rfl⟩
    simp

/-- When it is not. -/
theorem take_error {n : Nat} {e' : ε} : (take e n).run view o = .error e' ↔ view.length < o + n ∧ e = e' := by
  simp only [take]
  split
  · simp only [reduceCtorEq, false_iff, not_and]
    omega
  · simp only [Except.error.injEq, iff_and_self]
    omega

/-- When a byte is there. -/
theorem byte_ok {b : UInt8} : (byte e).run view o = .ok (b, o') ↔ Holds view o [b] o' := by
  simp only [byte]
  constructor
  · intro h
    split at h
    · rename_i c hc
      obtain ⟨rfl, rfl⟩ := Prod.mk.inj (Except.ok.inj h)
      obtain ⟨ho, hget⟩ := List.getElem?_eq_some_iff.1 hc
      refine ⟨view.take o, view.drop (o + 1), ?_, ?_, ?_⟩
      · rw [← hget]
        simp
      · simp; omega
      · simp; omega
    · nomatch h
  · rintro ⟨p, s, rfl, rfl, rfl⟩
    simp

/-- When it is not. -/
theorem byte_error {e' : ε} : (byte e).run view o = .error e' ↔ view.length ≤ o ∧ e = e' := by
  simp only [byte]
  split
  · rename_i c hc
    obtain ⟨ho, -⟩ := List.getElem?_eq_some_iff.1 hc
    simp only [reduceCtorEq, false_iff, not_and]
    omega
  · rename_i hc
    simp only [Except.error.injEq, iff_and_self]
    intro _
    exact List.getElem?_eq_none_iff.1 hc

end Reader

/-! ## Lawful codecs -/

/-- The writer appends the encoding of a valid value and nothing else; the reader returns a value where the encoding of
a valid value stands, and moves behind it, and returns nowhere else. -/
structure Lawful {ε α : Type} (Valid : α → Prop) (encode : α → Bytes) (write : α → Bytes → Except ε Bytes)
    (read : Reader ε α) : Prop where
  writes : ∀ a p, Valid a → write a p = .ok (p ++ encode a)
  reads : ∀ view o a o', read.run view o = .ok (a, o') ↔ Valid a ∧ Holds view o (encode a) o'

namespace Lawful

variable {ε α : Type} {Valid : α → Prop} {encode : α → Bytes} {write : α → Bytes → Except ε Bytes} {read : Reader ε α}

/-- What was written is read, whatever stands around it. -/
theorem round_trip (h : Lawful Valid encode write read) {a : α} (ha : Valid a) (p s : Bytes) :
    read.run (p ++ encode a ++ s) p.length = .ok (a, p.length + (encode a).length) :=
  (h.reads _ _ _ _).2 ⟨ha, holds_append p (encode a) s⟩

end Lawful

end Lib
