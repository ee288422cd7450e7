import Mathlib.Data.Nat.Find
import Mathlib.Data.List.Perm.Subperm
import Flpdf.Parser.LiveParser

/-!
# The grammar of containers

What the tokens between the two ends of an array or of a dictionary stand for:
two integers and an `R` are a reference, a key of a dictionary takes the item
behind it, and an item without a key gets a key of its own.
-/

namespace Flpdf

/-! ## Items -/

/-- A token, or a container that is complete. One that stands for something else than
it should counts as bad. -/
inductive Atom where
  | integer (value : ℤ)
  | letterR
  | name (text : Bytes)
  | other (value : ObjectValue) (bad : ℕ)

/-- What a container holds. -/
inductive Item where
  | name (text : Bytes)
  | reference (number generation : ℤ)
  | other (value : ObjectValue) (bad : ℕ)

/-- The item of an atom that is no part of a reference. -/
def Atom.item : Atom → Item
  | .integer value => .other (.integer value) 0
  | .letterR => .other (.string (ascii "R")) 1
  | .name text => .name text
  | .other value bad => .other value bad

/-- Two integers and an `R` are one item, anything else is an item of its own. -/
def group : List Atom → List Item
  | .integer number :: .integer generation :: .letterR :: atoms =>
    .reference number generation :: group atoms
  | atom :: atoms => atom.item :: group atoms
  | [] => []

namespace Item

/-- The value of an item; a reference out of range is null. -/
def value : Item → ObjectValue
  | .name text => .name (text.drop 1)
  | .reference number generation =>
    if 1 ≤ number ∧ 0 ≤ generation ∧ generation < 65535 then .indirect ⟨number, generation⟩
    else .null
  | .other value _ => value

def bad : Item → ℕ
  | .name _ => 0
  | .reference _ _ => 0
  | .other _ bad => bad

/-- The numbers of a reference have 32 bits. -/
def Fits : Item → Prop
  | .reference number generation => FitsInt number ∧ FitsInt generation
  | _ => True

instance : DecidablePred Fits
  | .reference number generation => inferInstanceAs (Decidable (FitsInt number ∧ FitsInt generation))
  | .name _ => .isTrue trivial
  | .other _ _ => .isTrue trivial

end Item

def badTotal (items : List Item) : ℕ := (items.map Item.bad).sum

/-! ## Dictionaries -/

/-- The values of a dictionary with their keys; the last key may lack a value. -/
def entriesOf : List Item → List (Option Bytes × ObjectValue)
  | [.name key] => [(some key, .null)]
  | .name key :: item :: items => (some key, item.value) :: entriesOf items
  | item :: items => (none, item.value) :: entriesOf items
  | [] => []

def keyed (items : List Item) : List (Bytes × ObjectValue) :=
  (entriesOf items).filterMap fun e => e.1.map fun key => (key, e.2)

def keyless (items : List Item) : List ObjectValue :=
  (entriesOf items).filterMap fun e => if e.1.isNone then some e.2 else none

/-- A key that is made up. -/
def fakeName (n : ℕ) : Bytes := ascii s!"/QPDFFake{n}"

/-- The digits of a number are read off its bytes. -/
theorem digits_of_bytes (n : ℕ) :
    ((Nat.toDigits 10 n).map fun c => c.toNat.toUInt8).map (fun b => Char.ofNat b.toNat) =
      Nat.toDigits 10 n := by
  rw [List.map_map]
  apply (List.map_congr_left ?_).trans (List.map_id _)
  intro c hc
  have hdigit := Nat.isDigit_of_mem_toDigits (by decide) (by decide) hc
  simp only [Char.isDigit, Bool.and_eq_true, decide_eq_true_eq] at hdigit
  have hle : c.toNat ≤ 57 := UInt32.le_iff_toNat_le.mp hdigit.2
  have hbyte : c.toNat.toUInt8.toNat = c.toNat := by
    rw [Nat.toUInt8, UInt8.toNat_ofNat']
    omega
  rw [Function.comp_apply, hbyte, Char.ofNat_toNat, id]

theorem fakeName_injective : Function.Injective fakeName := by
  intro m n heq
  have hbytes : (Nat.toDigits 10 m).map (fun c => c.toNat.toUInt8) =
      (Nat.toDigits 10 n).map fun c => c.toNat.toUInt8 := by
    simpa [fakeName, ascii] using heq
  have hdigits : Nat.toDigits 10 m = Nat.toDigits 10 n := by
    rw [← digits_of_bytes m, hbytes, digits_of_bytes]
  rw [← Nat.ofDigitChars_ten_toDigits (n := m), hdigits, Nat.ofDigitChars_ten_toDigits]

/-- Among the made-up keys one more than there are taken ones, one is free. -/
theorem exists_free (taken : List Bytes) (start : ℕ) :
    ∃ n, start ≤ n ∧ n ≤ start + taken.length ∧ fakeName n ∉ taken := by
  by_contra hnone
  push Not at hnone
  have hnodup : ((List.range' start (taken.length + 1)).map fakeName).Nodup :=
    (List.nodup_range' 1).map fakeName_injective
  have hsubset : (List.range' start (taken.length + 1)).map fakeName ⊆ taken := by
    intro key hkey
    obtain ⟨n, hn, rfl⟩ := List.mem_map.mp hkey
    rw [List.mem_range'_1] at hn
    exact hnone n hn.1 (by omega)
  have hlength := hnodup.length_le_of_subset hsubset
  rw [List.length_map, List.length_range'] at hlength
  omega

/-- The least number whose key is free. -/
def nextFree (taken : List Bytes) (start : ℕ) : ℕ :=
  Nat.find (p := fun n => start ≤ n ∧ fakeName n ∉ taken)
    ((exists_free taken start).imp fun _ h => ⟨h.1, h.2.2⟩)

/-- As many free numbers as are wanted, in order. -/
def freeNumbers (taken : List Bytes) : ℕ → ℕ → List ℕ
  | 0, _ => []
  | count + 1, start =>
    nextFree taken start :: freeNumbers taken count (nextFree taken start + 1)

variable {taken : List Bytes} {start count n : ℕ}

theorem nextFree_spec (taken : List Bytes) (start : ℕ) :
    start ≤ nextFree taken start ∧ fakeName (nextFree taken start) ∉ taken :=
  Nat.find_spec (p := fun n => start ≤ n ∧ fakeName n ∉ taken) _

theorem taken_of_lt (hstart : start ≤ n) (hn : n < nextFree taken start) : fakeName n ∈ taken := by
  by_contra hfree
  exact Nat.find_min (p := fun n => start ≤ n ∧ fakeName n ∉ taken) _ hn ⟨hstart, hfree⟩

@[simp] theorem length_freeNumbers : (freeNumbers taken count start).length = count := by
  induction count generalizing start with
  | zero => rfl
  | succ count ih => rw [freeNumbers, List.length_cons, ih]

theorem le_of_mem_freeNumbers (h : n ∈ freeNumbers taken count start) :
    start ≤ n ∧ fakeName n ∉ taken := by
  induction count generalizing start with
  | zero => cases h
  | succ count ih =>
    obtain ⟨hle, hfree⟩ := nextFree_spec taken start
    rcases List.mem_cons.mp h with rfl | hmem
    · exact ⟨hle, hfree⟩
    · obtain ⟨hle', hfree'⟩ := ih hmem
      exact ⟨by omega, hfree'⟩

theorem nodup_freeNumbers : (freeNumbers taken count start).Nodup := by
  induction count generalizing start with
  | zero => exact List.nodup_nil
  | succ count ih =>
    apply List.nodup_cons.mpr ⟨?_, ih⟩
    intro hmem
    have hle := (le_of_mem_freeNumbers hmem).1
    omega

/-- The keys that are not made up; a name without a key counts as one. -/
def takenKeys (items : List Item) : List Bytes :=
  (keyed items).map Prod.fst ++ ((keyless items).filterMap LiveParser.asName).map (0x2f :: ·)

/-- The keys for the values that have none. -/
def fakeNames (items : List Item) : List Bytes :=
  (freeNumbers (takenKeys items) (keyless items).length 1).map fakeName

/-- The dictionary of its items. -/
def dictionaryOf (items : List Item) : List (Bytes × ObjectValue) :=
  (keyed items ++ (fakeNames items).zip (keyless items)).foldl
    (fun map e => insertSorted e.1 e.2 map) []

section Dictionary

variable (items : List Item)

theorem length_fakeNames : (fakeNames items).length = (keyless items).length := by
  rw [fakeNames, List.length_map, length_freeNumbers]

theorem nodup_fakeNames : (fakeNames items).Nodup :=
  nodup_freeNumbers.map fakeName_injective

/-- No key that is made up is the key of another value. -/
theorem fakeNames_fresh {key : Bytes} (h : key ∈ fakeNames items) :
    (∃ n, key = fakeName n) ∧ key ∉ (keyed items).map Prod.fst := by
  obtain ⟨n, hn, rfl⟩ := List.mem_map.mp h
  exact ⟨⟨n, rfl⟩, fun hkey => (le_of_mem_freeNumbers hn).2 (List.mem_append_left _ hkey)⟩

theorem ascending_dictionaryOf : Ascending (dictionaryOf items) :=
  ascending_foldl_insertSorted _ List.Pairwise.nil

/-- A key has its last value, a made-up key the value it was made up for. -/
theorem lookup_dictionaryOf (key : Bytes) : (dictionaryOf items).lookup key =
    (keyed items ++ (fakeNames items).zip (keyless items)).reverse.lookup key := by
  rw [dictionaryOf, lookup_foldl_insertSorted, List.append_nil]

end Dictionary

/-! ## Containers -/

inductive ContainerKind where
  | array
  | dictionary
  deriving DecidableEq

namespace ContainerKind

def opening : ContainerKind → TokenType
  | .array => .arrayOpen
  | .dictionary => .dictOpen

def closing : ContainerKind → TokenType
  | .array => .arrayClose
  | .dictionary => .dictClose

/-- The container of its items. -/
def build : ContainerKind → List Item → ObjectValue
  | .array, items => .array (items.map Item.value)
  | .dictionary, items => .dictionary (dictionaryOf items)

end ContainerKind

/-- The atom of a token inside a container. -/
def atomOf (token : Token) : Atom :=
  match token.tokenType with
  | .integer => .integer (intValue token.raw)
  | .name => .name token.value
  | .string => .other (.string token.value) 0
  | .bool => .other (.boolean (token.value == ascii "true")) 0
  | .null => .other .null 0
  | .real => .other (.real token.value) 0
  | .word => if token.value = ascii "R" then .letterR else .other (.string token.value) 1
  | _ => .other .null 1

/-- The token is inside a container of the kind, and no container begins with it. -/
structure Inside (kind : ContainerKind) (token : Token) : Prop where
  eof : token.tokenType ≠ .eof
  opening : ∀ kind' : ContainerKind, token.tokenType ≠ kind'.opening
  closing : token.tokenType ≠ kind.closing

instance (kind : ContainerKind) (token : Token) : Decidable (Inside kind token) :=
  decidable_of_iff (token.tokenType ≠ .eof ∧ (token.tokenType ≠ .arrayOpen ∧
      token.tokenType ≠ .dictOpen) ∧ token.tokenType ≠ kind.closing)
    ⟨fun ⟨heof, hopening, hclosing⟩ =>
      ⟨heof, fun | .array => hopening.1 | .dictionary => hopening.2, hclosing⟩,
      fun h => ⟨h.eof, ⟨h.opening .array, h.opening .dictionary⟩, h.closing⟩⟩

/-- What the tokens inside a container stand for, with containers nested at most `d` deep. -/
inductive Content : ℕ → ContainerKind → List Token → List Atom → Prop where
  | nil {d : ℕ} {kind : ContainerKind} : Content d kind [] []
  | token {d : ℕ} {kind : ContainerKind} {token : Token} {tokens : List Token} {atoms : List Atom}
      (hinside : Inside kind token) (hrest : Content d kind tokens atoms) :
      Content d kind (token :: tokens) (atomOf token :: atoms)
  | container {d : ℕ} {kind kind' : ContainerKind} {opening closing : Token}
      {inner tokens : List Token} {atoms' atoms : List Atom}
      (hopening : opening.tokenType = kind'.opening) (hinner : Content d kind' inner atoms')
      (hfits : ∀ item ∈ group atoms', item.Fits) (hclosing : closing.tokenType = kind'.closing)
      (hrest : Content (d + 1) kind tokens atoms) :
      Content (d + 1) kind (opening :: (inner ++ closing :: tokens))
        (.other (kind'.build (group atoms')) (badTotal (group atoms')) :: atoms)

theorem content_of_inside {d : ℕ} {kind : ContainerKind} {tokens : List Token}
    (h : ∀ token ∈ tokens, Inside kind token) : Content d kind tokens (tokens.map atomOf) := by
  induction tokens with
  | nil => exact .nil
  | cons token tokens ih =>
    rw [List.forall_mem_cons] at h
    exact .token h.1 (ih h.2)

end Flpdf
