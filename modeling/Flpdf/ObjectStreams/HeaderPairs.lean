import Flpdf.Bytes.Decimal
import Flpdf.Tokenizer.Spellings

/-!
# Header pairs of object streams

An object stream begins with pairs of an object number and an offset. A pair of decimal
numbers is read back whatever white space stands in front of it.
-/

namespace Flpdf.Tokenizer

variable {o : Tokenizer}

/-- `parse_object_stream_integer`. -/
def parseObjectStreamInteger (token : Token) : Except (ℕ × Bytes) ℤ :=
  if isIntText token.value ∧ -2 ^ 63 ≤ intValue token.value ∧ intValue token.value < 2 ^ 63 then
    .ok (intValue token.value)
  else .error (token.start, ascii "integer is out of range")

/-- `next_object_stream_header_pair`: both tokens are read before either is looked at. -/
def nextObjectStreamHeaderPair (t : Tokenizer) : Except (ℕ × Bytes) (ℤ × ℤ) × Tokenizer :=
  match t.readQpdfToken 0 with
  | (.error e, t) => (.error e, t)
  | (.ok objectNumber, t) =>
    match t.readQpdfToken 0 with
    | (.error e, t) => (.error e, t)
    | (.ok objectOffset, t) =>
      if objectNumber.isInteger && objectOffset.isInteger then
        match parseObjectStreamInteger objectNumber with
        | .error e => (.error e, t)
        | .ok number =>
          match parseObjectStreamInteger objectOffset with
          | .error e => (.error e, t)
          | .ok offset => (.ok (number, offset), t)
      else
        (.error (objectOffset.start, ascii "expected integer in object stream header"), t)

/-- So many header pairs, one after the other. -/
def readHeaderPairs : ℕ → Tokenizer → Except (ℕ × Bytes) (List (ℤ × ℤ)) × Tokenizer
  | 0, t => (.ok [], t)
  | n + 1, t =>
    match t.nextObjectStreamHeaderPair with
    | (.error e, t) => (.error e, t)
    | (.ok pair, t) =>
      match readHeaderPairs n t with
      | (.error e, t) => (.error e, t)
      | (.ok pairs, t) => (.ok (pair :: pairs), t)

/-- A pair as it is written. -/
def headerPair (pair : ℕ × ℕ) : Bytes := natDecimal pair.1 ++ 0x20 :: natDecimal pair.2

theorem isIntText_natDecimal (n : ℕ) : isIntText (natDecimal n) = true :=
  isIntText_intDecimal n

theorem intValue_natDecimal (n : ℕ) : intValue (natDecimal n) = n :=
  intValue_intDecimal n

theorem parseObjectStreamInteger_natDecimal {n : ℕ} (h : n < 2 ^ 63) (start : ℕ) :
    parseObjectStreamInteger (spelledToken start .integer (natDecimal n) (natDecimal n)) =
      .ok (n : ℤ) := by
  rw [parseObjectStreamInteger, spelledToken, isIntText_natDecimal, intValue_natDecimal]
  exact if_pos ⟨rfl, by omega, by exact_mod_cast h⟩

/-- A pair at the cursor is read as it was written. -/
theorem StandsAt.nextObjectStreamHeaderPair {gap rest : Bytes} {pair : ℕ × ℕ}
    (h : StandsAt o (gap ++ headerPair pair ++ rest)) (hgap : ∀ b ∈ gap, isWs b = true)
    (hnumber : pair.1 < 2 ^ 63) (hoffset : pair.2 < 2 ^ 63)
    (hrest : ∀ d ∈ rest.head?, isTokenDelimiter d = true) :
    ∃ o', o.nextObjectStreamHeaderPair = (.ok ((pair.1 : ℤ), (pair.2 : ℤ)), o') ∧
      StandsAt o' rest ∧ o'.input = o.input := by
  have hspelling : ∀ n, Spelling (natDecimal n) .integer (natDecimal n) :=
    fun n => Spelling.integer (isIntText_natDecimal n)
  have hfirst : StandsAt o (gap ++ natDecimal pair.1 ++ ([0x20] ++ natDecimal pair.2 ++ rest)) := by
    rw [headerPair] at h
    simpa [List.append_assoc] using h
  obtain ⟨o₁, hread₁, hstands₁, hinput₁⟩ := hfirst.readQpdfToken hgap (hspelling pair.1) (by
    refine .inr ?_
    intro d hd
    obtain rfl : 0x20 = d := by simpa using hd
    decide)
  have hspace : ∀ b ∈ ([0x20] : Bytes), isWs b = true := by
    intro b hb
    rw [List.mem_singleton.mp hb]
    rfl
  obtain ⟨o₂, hread₂, hstands₂, hinput₂⟩ :=
    hstands₁.readQpdfToken hspace (hspelling pair.2) (.inr hrest)
  refine ⟨o₂, ?_, hstands₂, hinput₂.trans hinput₁⟩
  simp only [Tokenizer.nextObjectStreamHeaderPair, hread₁, hread₂,
    parseObjectStreamInteger_natDecimal hnumber, parseObjectStreamInteger_natDecimal hoffset]
  rfl

/-- Pairs that are written one after the other are read back. -/
theorem StandsAt.readHeaderPairs {sep : UInt8} {pairs : List (ℕ × ℕ)} {rest : Bytes}
    (h : StandsAt o (pairs.flatMap (fun pair => sep :: headerPair pair) ++ rest))
    (hsep : isWs sep = true) (hpairs : ∀ pair ∈ pairs, pair.1 < 2 ^ 63 ∧ pair.2 < 2 ^ 63)
    (hrest : ∀ d ∈ rest.head?, isTokenDelimiter d = true) :
    ∃ o', Tokenizer.readHeaderPairs pairs.length o =
        (.ok (pairs.map fun pair => ((pair.1 : ℤ), (pair.2 : ℤ))), o') ∧
      StandsAt o' rest ∧ o'.input = o.input := by
  induction pairs generalizing o with
  | nil => exact ⟨o, rfl, h, rfl⟩
  | cons pair pairs ih =>
    have hdelimiter : isTokenDelimiter sep = true := by
      rw [isTokenDelimiter, hsep, Bool.true_or]
    have hhead : StandsAt o ([sep] ++ headerPair pair ++
        (pairs.flatMap (fun pair => sep :: headerPair pair) ++ rest)) := by
      simpa [List.append_assoc] using h
    have hfollows : ∀ d ∈ (pairs.flatMap (fun pair => sep :: headerPair pair) ++ rest).head?,
        isTokenDelimiter d = true := by
      cases pairs with
      | nil => exact hrest
      | cons next pairs =>
        intro d hd
        obtain rfl : sep = d := by simpa using hd
        exact hdelimiter
    have hfits := hpairs pair List.mem_cons_self
    obtain ⟨o₁, hread₁, hstands₁, hinput₁⟩ := hhead.nextObjectStreamHeaderPair (by
      intro b hb
      rw [List.mem_singleton.mp hb]
      exact hsep) hfits.1 hfits.2 hfollows
    obtain ⟨o₂, hread₂, hstands₂, hinput₂⟩ :=
      ih hstands₁ fun p hp => hpairs p (List.mem_cons_of_mem pair hp)
    refine ⟨o₂, ?_, hstands₂, hinput₂.trans hinput₁⟩
    simp only [List.length_cons, Tokenizer.readHeaderPairs, hread₁, hread₂, List.map_cons]

end Flpdf.Tokenizer
