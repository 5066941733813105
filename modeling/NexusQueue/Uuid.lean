/-
# Uuids and their texts

A uuid has 128 bits, which are written as 32 hexadecimal digits.  PostgreSQL prints them in
lower case, with a hyphen after the second, third, fourth and fifth group of four digits.  It
reads more than that: either case, a hyphen or none after any group but the last, and braces
around the whole.  So a uuid has many spellings, and columns of this type compare uuids, not
texts.

* `text` and `read`: what is printed, and what is read;
* `read_spell`: every spelling with lower-case digits is read as what it spells, so the
  printed text is read back (`read_text`);
* `normal`: what is printed for a text that has been read;
* `exists_text_notMem`: there are `2 ^ 128` of them.
-/
import Mathlib.Tactic

/-- Four hexadecimal digits. -/
structure Uuid.Word where
  (a b c d : Fin 16)
  deriving DecidableEq

/-- A uuid, most significant digits first. -/
structure Uuid where
  words : List Uuid.Word
  length_words : words.length = 8
  deriving DecidableEq

namespace Uuid

/-! ## Printing -/

/-- The digits of a word. -/
def Word.chars (w : Word) : List Char := [w.a, w.b, w.c, w.d].map fun d => Nat.digitChar d

/-- Words, with hyphens after those for which the list says so, but none after the last. -/
def spell : List Bool → List Word → List Char
  | hyphen :: hyphens, w :: ws =>
      w.chars ++ if hyphen ∧ ws ≠ [] then '-' :: spell hyphens ws else spell hyphens ws
  | _, ws => ws.flatMap Word.chars

/-- What is printed. -/
def text (u : Uuid) : String := String.ofList (spell [false, true, true, true, true] u.words)

instance : Coe Uuid String := ⟨text⟩

/-- The uuid that is zero but for its last byte. -/
def ofByte (n : ℕ) : Uuid :=
  ⟨List.replicate 7 ⟨0, 0, 0, 0⟩ ++ [⟨0, 0, Fin.ofNat 16 (n / 16), Fin.ofNat 16 n⟩], rfl⟩

/-! ## Reading -/

/-- The value of a digit, in either case. -/
def digit? (c : Char) : Option (Fin 16) :=
  if '0' ≤ c ∧ c ≤ '9' then some (Fin.ofNat 16 (c.toNat - '0'.toNat))
  else if 'a' ≤ c ∧ c ≤ 'f' then some (Fin.ofNat 16 (c.toNat - 'a'.toNat + 10))
  else if 'A' ≤ c ∧ c ≤ 'F' then some (Fin.ofNat 16 (c.toNat - 'A'.toNat + 10))
  else none

/-- Four digits, and what comes after them. -/
def readWord : List Char → Option (Word × List Char)
  | a :: b :: c :: d :: cs => do
      let a ← digit? a
      let b ← digit? b
      let c ← digit? c
      let d ← digit? d
      pure (⟨a, b, c, d⟩, cs)
  | _ => none

/-- What comes after a hyphen, if there is one. -/
def skipHyphen : List Char → List Char
  | '-' :: cs => cs
  | cs => cs

/-- So many words, and what comes after them. -/
def readWords : ℕ → List Char → Option (List Word × List Char)
  | 0, cs => some ([], cs)
  | n + 1, cs => do
      let (w, cs) ← readWord cs
      let (ws, cs) ← readWords n (if n = 0 then cs else skipHyphen cs)
      pure (w :: ws, cs)

/-- A uuid before the given end of the text. -/
def readUpTo (close cs : List Char) : Option Uuid := do
  let (ws, rest) ← readWords 8 cs
  if h : ws.length = 8 ∧ rest = close then pure ⟨ws, h.1⟩ else none

/-- What is read. -/
def read (s : String) : Option Uuid :=
  match s.toList with
  | '{' :: cs => readUpTo ['}'] cs
  | cs => readUpTo [] cs

/-! ## What is printed is read -/

section Spelling

variable {u : Uuid} {w : Word} {ws : List Word} {hyphens : List Bool} {cs : List Char}
  {s s' : String}

@[simp] theorem digit?_digitChar (d : Fin 16) : digit? (Nat.digitChar d) = some d := by
  revert d
  decide

theorem digitChar_ne (d : Fin 16) : Nat.digitChar d ≠ '-' ∧ Nat.digitChar d ≠ '{' := by
  revert d
  decide

@[simp] theorem readWord_chars (w : Word) (cs : List Char) :
    readWord (w.chars ++ cs) = some (w, cs) := by
  simp [Word.chars, readWord]

@[simp] theorem skipHyphen_chars (w : Word) (cs : List Char) :
    skipHyphen (w.chars ++ cs) = w.chars ++ cs := by
  have hne := (digitChar_ne w.a).1
  unfold Word.chars skipHyphen
  split
  · rename_i heq
    exact absurd (List.cons.inj heq).1 hne
  · rfl

/-- A spelling begins with a word. -/
theorem spell_cons (hyphens : List Bool) (w : Word) (ws : List Word) :
    ∃ cs, spell hyphens (w :: ws) = w.chars ++ cs := by
  cases hyphens with
  | nil => exact ⟨ws.flatMap Word.chars, by simp [spell]⟩
  | cons hyphen hyphens => exact ⟨_, rfl⟩

/-- Words are read from any spelling. -/
theorem readWords_spell (hyphens : List Bool) (ws : List Word) (cs : List Char) :
    readWords ws.length (spell hyphens ws ++ cs) = some (ws, cs) := by
  induction ws generalizing hyphens with
  | nil => cases hyphens <;> rfl
  | cons w ws ih =>
      -- what follows the word is a hyphen or the next word
      obtain ⟨hyphens', rest, hspell, hrest⟩ : ∃ hyphens' rest,
          spell hyphens (w :: ws) = w.chars ++ rest ∧
            (if ws.length = 0 then rest ++ cs else skipHyphen (rest ++ cs)) =
              spell hyphens' ws ++ cs := by
        have next : ∀ hyphens', (if ws.length = 0 then spell hyphens' ws ++ cs
            else skipHyphen (spell hyphens' ws ++ cs)) = spell hyphens' ws ++ cs := by
          intro hyphens'
          cases ws with
          | nil => simp
          | cons w' ws =>
              obtain ⟨cs', hcs'⟩ := spell_cons hyphens' w' ws
              rw [if_neg (by simp), hcs', List.append_assoc, skipHyphen_chars]
        cases hyphens with
        | nil =>
            refine ⟨[], spell [] ws, by simp [spell], next []⟩
        | cons hyphen hyphens =>
            by_cases hh : hyphen = true ∧ ws ≠ []
            · refine ⟨hyphens, '-' :: spell hyphens ws, by rw [spell, if_pos hh], ?_⟩
              rw [if_neg (by simpa using hh.2)]
              rfl
            · exact ⟨hyphens, spell hyphens ws, by rw [spell, if_neg hh], next hyphens⟩
      rw [hspell, List.length_cons, readWords, List.append_assoc, readWord_chars]
      simp only [Option.bind_eq_bind, Option.bind_some, hrest, ih]
      rfl

theorem readUpTo_spell (hyphens : List Bool) (u : Uuid) (close : List Char) :
    readUpTo close (spell hyphens u.words ++ close) = some u := by
  have hwords := readWords_spell hyphens u.words close
  rw [u.length_words] at hwords
  rw [readUpTo, hwords]
  simp [u.length_words]

/-- **Every spelling is read as what it spells.** -/
theorem read_spell (hyphens : List Bool) (u : Uuid) :
    read (String.ofList (spell hyphens u.words)) = some u := by
  have hspell := readUpTo_spell hyphens u []
  rw [List.append_nil] at hspell
  rw [read, String.toList_ofList]
  split
  · rename_i cs heq
    -- a word does not begin with a brace
    obtain ⟨w, ws, hws⟩ := List.exists_cons_of_length_eq_add_one u.length_words
    obtain ⟨cs', hcs'⟩ := spell_cons hyphens w ws
    rw [hws, hcs'] at heq
    exact absurd (List.cons.inj heq).1 (digitChar_ne w.a).2
  · exact hspell

/-- **What is printed is read back.** -/
@[simp] theorem read_text (u : Uuid) : read u.text = some u := read_spell _ u

theorem text_injective : Function.Injective text := fun u u' h =>
  Option.some_inj.mp (by rw [← read_text u, h, read_text])

theorem text_ne_blank (u : Uuid) : u.text ≠ "" := by
  intro h
  have hread := read_text u
  rw [h] at hread
  cases hread

/-! ## Other spellings -/

/-- What is printed for the uuid that a text spells. -/
def normal (s : String) : Option String := (read s).map text

/-- The text is one that is printed. -/
def Printed (s : String) : Prop := normal s = some s

instance (s : String) : Decidable (Printed s) := inferInstanceAs (Decidable (_ = _))

@[simp] theorem normal_text (u : Uuid) : normal u.text = some u.text := by simp [normal]

theorem printed_text (u : Uuid) : Printed u.text := normal_text u

theorem printed_of_normal (h : normal s = some s') : Printed s' := by
  obtain ⟨u, -, rfl⟩ := Option.map_eq_some_iff.mp h
  exact printed_text u

end Spelling

/-! ## Their number -/

instance : Inhabited Uuid := ⟨⟨List.replicate 8 ⟨0, 0, 0, 0⟩, rfl⟩⟩

def Word.equiv : Word ≃ Fin 16 × Fin 16 × Fin 16 × Fin 16 where
  toFun w := (w.a, w.b, w.c, w.d)
  invFun x := ⟨x.1, x.2.1, x.2.2.1, x.2.2.2⟩

def equiv : Uuid ≃ List.Vector Word 8 where
  toFun u := ⟨u.words, u.length_words⟩
  invFun v := ⟨v.1, v.2⟩

instance : Fintype Word := .ofEquiv _ Word.equiv.symm

instance : Fintype Uuid := .ofEquiv _ equiv.symm

theorem card_uuid : Fintype.card Uuid = 2 ^ 128 := by
  have hword : Fintype.card Word = 16 ^ 4 := by
    rw [Fintype.card_congr Word.equiv]
    simp
  rw [Fintype.card_congr equiv, card_vector, hword]
  norm_num

/-- A smaller set of texts leaves one out. -/
theorem exists_text_notMem {ids : Finset String} (h : ids.card < 2 ^ 128) :
    ∃ u : Uuid, u.text ∉ ids := by
  by_contra hall
  push Not at hall
  have hsub : Finset.univ.image text ⊆ ids := Finset.image_subset_iff.mpr fun u _ => hall u
  have hle := Finset.card_le_card hsub
  rw [Finset.card_image_of_injective _ text_injective, Finset.card_univ, card_uuid] at hle
  omega

/-- Two spellings of one uuid, and a text that is none. -/
example : normal "{0123456789abcdef-0123456789ABCDEF}" =
    some "01234567-89ab-cdef-0123-456789abcdef" ∧ normal "nope" = none := by
  decide +kernel

end Uuid
