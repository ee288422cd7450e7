import Flpdf.Streams.InputSource
import Flpdf.Tokenizer.Windows

/-!
# The extent of a stream

The buffered reader is at a place of the file, whatever its buffer holds. The search for the end
of a damaged stream therefore finds the first place where a run of regular bytes is a keyword,
and the declared length is kept where `endstream` is the next token behind it.
-/

namespace Flpdf.Streams

variable {file : File} {env : Environment} {s s' : Input} {l l' : LiveInput} {p q count : ℕ}

/-! ## Reading the file -/

theorem File.fill_eq {rounds position room : ℕ} (h : room ≤ rounds) :
    file.fill rounds position room = (file.contents.drop position).take room := by
  induction rounds generalizing position room with
  | zero => rw [Nat.le_zero.mp h, List.take_zero, fill]
  | succ rounds ih =>
    rw [fill]
    split_ifs with hstop
    · rcases hstop with rfl | htaken
      · rw [List.take_zero]
      · rcases List.take_eq_nil_iff.mp htaken with hgive | hdrop
        · rcases Nat.eq_zero_or_pos room with rfl | hroom
          · rw [List.take_zero]
          · exact absurd hgive (file.give_pos position room hroom).ne'
        · rw [hdrop, List.take_nil]
    · rw [not_or] at hstop
      generalize htaken : (file.contents.drop position).take (file.give position room) = taken
        at hstop ⊢
      have hlength : taken.length ≤ room := by
        rw [← htaken, List.length_take]
        exact (Nat.min_le_left _ _).trans (file.give_le position room)
      have hpos := List.length_pos_of_ne_nil hstop.2
      have hfront : taken = (file.contents.drop position).take taken.length :=
        List.prefix_iff_eq_take.mp (htaken ▸ List.take_prefix _ _)
      calc taken ++ file.fill rounds (position + taken.length) (room - taken.length)
          = taken ++ ((file.contents.drop position).drop taken.length).take
              (room - taken.length) := by rw [ih (by omega), List.drop_drop]
        _ = (file.contents.drop position).take (taken.length + (room - taken.length)) := by
          rw [List.take_add, ← hfront]
        _ = (file.contents.drop position).take room := by rw [Nat.add_sub_cancel' hlength]

/-- The place is one behind the header that can be sought. -/
def InPlace (file : File) (s : Input) : Prop :=
  file.headerOffset ≤ s.position ∧ s.position ≤ maxOffset

/-- The place is in the file. -/
def InFile (file : File) (s : Input) : Prop :=
  file.headerOffset ≤ s.position ∧ s.position ≤ file.contents.length

theorem InFile.inPlace (h : InFile file s) : InPlace file s := ⟨h.1, h.2.trans file.length_le⟩

theorem File.length_logical : file.logical.length = file.contents.length - file.headerOffset := by
  rw [logical, List.length_drop]

theorem File.drop_contents (p : ℕ) :
    file.contents.drop (file.headerOffset + p) = file.logical.drop p := by
  rw [logical, List.drop_drop]

theorem tell_yields : (tell file).Yields s fun position s' =>
    s = s' ∧ position = s.position - file.headerOffset :=
  ⟨_, s, rfl, rfl, rfl⟩

theorem seek_yields (h : file.headerOffset + p ≤ maxOffset) : (seek file p).Yields s
    fun _ s' => s'.position = file.headerOffset + p ∧ s'.lastOffset = s.lastOffset := by
  rw [seek, if_neg (by omega), if_neg (by omega)]
  exact Program.yields_modify_bind (Program.yields_modify ⟨rfl, rfl⟩)

/-- A read takes what is there; at the end of the file it stays there. -/
theorem read_yields (hs : s.position = file.headerOffset + p) :
    (read file count).Yields s fun bytes s' => bytes = (file.logical.drop p).take count ∧
      s'.position = (if bytes = [] ∧ count ≠ 0 then file.contents.length
        else file.headerOffset + p + bytes.length) ∧
      s'.lastOffset ≤ max p file.logical.length := by
  rw [read]
  apply Program.yields_get_bind
  dsimp only
  rw [File.fill_eq le_rfl, hs, File.drop_contents]
  split_ifs with hend
  · refine Program.yields_modify_bind (Program.yields_modify_bind (Program.yields_pure ?_))
    refine ⟨rfl, (if_pos hend).symm, ?_⟩
    rw [← File.length_logical]
    exact le_max_right _ _
  · refine Program.yields_modify_bind (Program.yields_modify_bind (Program.yields_pure ?_))
    refine ⟨rfl, ?_, ?_⟩
    · rw [if_neg hend, ← hs]
    · change s.position - file.headerOffset ≤ _
      rw [hs, Nat.add_sub_cancel_left]
      exact le_max_left _ _

theorem readByte_yields (h : InFile file s) : (readByte file).Yields s fun next s' =>
    InFile file s' ∧ (next.isSome → s'.position = s.position + 1) := by
  obtain ⟨p, hp⟩ := Nat.exists_eq_add_of_le h.1
  refine (read_yields hp).bind ?_
  rintro bytes s' ⟨hbytes, hposition, -⟩
  apply Program.yields_pure
  have hle := h.2
  have hheader := file.header_le
  by_cases hend : bytes = []
  · subst hend
    rw [if_pos ⟨rfl, one_ne_zero⟩] at hposition
    exact ⟨⟨by omega, hposition.le⟩, nofun⟩
  · rw [if_neg fun hnot => hend hnot.1] at hposition
    have hlength : bytes.length = 1 := by
      have hpos := List.length_pos_of_ne_nil hend
      have htake := List.length_take_le 1 (file.logical.drop p)
      rw [← hbytes] at htake
      omega
    have hroom : p + bytes.length ≤ file.logical.length := by
      have hmin := congrArg List.length hbytes
      rw [List.length_take, List.length_drop] at hmin
      omega
    rw [File.length_logical] at hroom
    exact ⟨⟨by omega, by omega⟩, fun _ => by omega⟩

theorem unreadByte_yields (h : InFile file s) : (unreadByte file).Yields s fun _ s' =>
    InFile file s' := by
  have hmax := h.inPlace.2
  obtain ⟨hge, hle⟩ := h
  refine tell_yields.bind ?_
  intro position t ht
  rw [← ht.1, ht.2]
  refine (seek_yields (by omega)).mono ?_
  rintro _ s' ⟨hposition, -⟩
  exact ⟨by omega, by omega⟩

/-! ## Reading through the buffer -/

/-- The live input is at a place of the file. -/
structure LiveInput.At (file : File) (l : LiveInput) (p : ℕ) (s : Input) : Prop where
  synced : s.generation = l.generation
  window : l.buffer = (file.logical.drop l.bufferStart).take l.buffer.length
  index_le : l.bufferIndex ≤ l.buffer.length
  place : l.buffer ≠ [] → p = l.bufferStart + l.bufferIndex
  position : s.position = file.headerOffset + p + (l.buffer.length - l.bufferIndex)

namespace LiveInput

theorem At.inFile (h : At file l p s) (hp : p ≤ file.logical.length) : InFile file s := by
  have hwindow := congrArg List.length h.window
  rw [List.length_take, List.length_drop] at hwindow
  have hposition := h.position
  have hindex := h.index_le
  have hheader := file.header_le
  rw [File.length_logical] at hp hwindow
  refine ⟨by omega, ?_⟩
  by_cases hbuffer : l.buffer = []
  · rw [hbuffer, List.length_nil] at hposition
    omega
  · have hplace := h.place hbuffer
    have hpos := List.length_pos_of_ne_nil hbuffer
    omega

theorem syncGeneration_of_at (h : At file l p s) :
    l.syncGeneration file s = some (.ok l, s) := by
  change (if s.generation = l.generation then pure l else _ : Program Input Error LiveInput) s = _
  rw [if_pos h.synced]
  rfl

theorem At.sync (h : At file l p s) : (l.syncGeneration file).Yields s fun l' s' =>
    l = l' ∧ s = s' :=
  ⟨l, s, syncGeneration_of_at h, rfl, rfl⟩

theorem At.tell (h : At file l p s) : (l.tell file).Yields s fun result s' =>
    result = (p, l) ∧ s = s' := by
  refine h.sync.bind ?_
  rintro _ _ ⟨rfl, rfl⟩
  split_ifs with hbuffer
  · refine tell_yields.bind ?_
    rintro position t ⟨rfl, hposition⟩
    refine Program.yields_pure ⟨?_, rfl⟩
    have hindex := h.index_le
    rw [h.position, hbuffer, List.length_nil, Nat.zero_sub, Nat.add_zero,
      Nat.add_sub_cancel_left] at hposition
    rw [hposition]
  · exact Program.yields_pure ⟨by rw [h.place hbuffer], rfl⟩

theorem seek_at (hp : file.headerOffset + p ≤ maxOffset) :
    (LiveInput.seek file p).Yields s fun l' s' => At file l' p s' := by
  refine (seek_yields hp).bind ?_
  rintro _ s' ⟨hposition, -⟩
  exact Program.yields_get_bind (Program.yields_pure ⟨rfl, rfl, le_rfl, nofun, hposition⟩)

theorem At.getElem?_buffer (h : At file l p s) (hindex : l.bufferIndex < l.buffer.length) :
    l.buffer[l.bufferIndex]? = file.logical[p]? := by
  have hbuffer : l.buffer ≠ [] := List.ne_nil_of_length_pos (by omega)
  rw [h.place hbuffer, h.window, List.getElem?_take_of_lt hindex, List.getElem?_drop]

/-- A spent buffer is filled with what comes next; at the end of the file it stays empty. -/
theorem At.refill (h : At file l p s) : (l.refill file).Yields s fun l' s' =>
    l'.buffer[l'.bufferIndex]? = file.logical[p]? ∧
      (p < file.logical.length → At file l' p s') ∧
      (file.logical.length ≤ p → At file l' file.logical.length s') := by
  rw [LiveInput.refill]
  split_ifs with hspent
  · have hposition : s.position = file.headerOffset + p := by
      rw [h.position, hspent, Nat.sub_self, Nat.add_zero]
    refine tell_yields.bind ?_
    rintro start t ⟨rfl, hstart⟩
    rw [hposition, Nat.add_sub_cancel_left] at hstart
    refine (read_yields hposition).bind ?_
    rintro bytes s' ⟨hbytes, hmoved, -⟩
    refine Program.yields_get_bind (Program.yields_pure ⟨?_, ?_, ?_⟩)
    · change bytes[0]? = _
      rw [hbytes, List.getElem?_take_of_lt (by decide), List.getElem?_drop, Nat.add_zero]
    · intro hp
      have hne : bytes ≠ [] := by
        rw [hbytes, Ne, List.take_eq_nil_iff, not_or]
        refine ⟨by decide, ?_⟩
        rw [List.drop_eq_nil_iff]
        omega
      rw [if_neg fun hnot => hne hnot.1] at hmoved
      refine ⟨rfl, ?_, Nat.zero_le _, fun _ => hstart.symm, hmoved⟩
      change bytes = (file.logical.drop start).take bytes.length
      rw [hstart, hbytes, List.length_take, List.take_eq_take_min, List.length_drop]
    · intro hp
      have hnil : bytes = [] := by
        rw [hbytes, List.drop_of_length_le hp, List.take_nil]
      subst hnil
      rw [if_pos ⟨rfl, by decide⟩] at hmoved
      refine ⟨rfl, rfl, le_rfl, nofun, ?_⟩
      have hheader := file.header_le
      change s'.position = file.headerOffset + file.logical.length + 0
      rw [hmoved, File.length_logical]
      omega
  · have hindex := h.index_le
    have hnext := h.getElem?_buffer (by omega)
    refine Program.yields_pure ⟨hnext, fun _ => h, fun hp => ?_⟩
    rw [List.getElem?_eq_none hp, List.getElem?_eq_none_iff] at hnext
    omega

theorem At.readByte (h : At file l p s) {byte : UInt8} (hbyte : file.logical[p]? = some byte) :
    (l.readByte file).Yields s fun result s' =>
      result.1 = some byte ∧ At file result.2 (p + 1) s' := by
  obtain ⟨hp, -⟩ := List.getElem?_eq_some_iff.mp hbyte
  refine h.sync.bind ?_
  rintro _ _ ⟨rfl, rfl⟩
  refine h.refill.bind ?_
  rintro l' s' ⟨hnext, hat, -⟩
  have hat := hat hp
  rw [hbyte] at hnext
  obtain ⟨hindex, -⟩ := List.getElem?_eq_some_iff.mp hnext
  simp only [hnext]
  have hbuffer : l'.buffer ≠ [] := List.ne_nil_of_length_pos (by omega)
  have hplace := hat.place hbuffer
  have hposition := hat.position
  exact Program.yields_pure ⟨rfl, hat.synced, hat.window, hindex, fun _ => by
    rw [hplace, Nat.add_assoc], by
    change s'.position = _ + (l'.buffer.length - (l'.bufferIndex + 1))
    omega⟩

/-- At the end of the file there is no byte, and the reader stays there. -/
theorem At.readByte_end (h : At file l p s) (hp : file.logical.length ≤ p) :
    (l.readByte file).Yields s fun result s' =>
      result.1 = none ∧ At file result.2 file.logical.length s' := by
  refine h.sync.bind ?_
  rintro _ _ ⟨rfl, rfl⟩
  refine h.refill.bind ?_
  rintro l' s' ⟨hnext, -, hat⟩
  rw [List.getElem?_eq_none hp] at hnext
  simp only [hnext]
  exact Program.yields_pure ⟨rfl, hat hp⟩

theorem At.unreadByte (h : At file l (p + 1) s) (hp : p < file.logical.length) :
    (l.unreadByte file).Yields s fun l' s' => At file l' p s' := by
  refine h.sync.bind ?_
  rintro _ _ ⟨rfl, rfl⟩
  have hposition := h.position
  have hindex := h.index_le
  split_ifs with hzero
  · refine Program.yields_pure ⟨h.synced, h.window, (Nat.sub_le _ _).trans hindex, ?_, ?_⟩
    · intro hbuffer
      have hplace := h.place hbuffer
      change p = l.bufferStart + (l.bufferIndex - 1)
      omega
    · change s.position = _ + (l.buffer.length - (l.bufferIndex - 1))
      omega
  · refine h.tell.bind ?_
    rintro _ _ ⟨rfl, rfl⟩
    dsimp only
    rw [if_neg (Nat.succ_ne_zero p), Nat.add_sub_cancel]
    have hmax := file.length_le
    have hheader := file.header_le
    rw [File.length_logical] at hp
    exact seek_at (by omega)

theorem At.unreadBytes (h : At file l (p + count) s) (hp : p + count ≤ file.logical.length) :
    (l.unreadBytes file count).Yields s fun l' s' => At file l' p s' := by
  induction count generalizing l s with
  | zero => exact Program.yields_pure h
  | succ count ih =>
    rw [LiveInput.unreadBytes]
    refine (At.unreadByte (p := p + count) h (by omega)).bind ?_
    intro l' s' h'
    exact ih h' (by omega)

end LiveInput

/-! ## The first end of a damaged stream -/

/-- The run of regular bytes at a place is one of the two keywords. -/
def EndsStream (bytes : Bytes) (p : ℕ) : Prop :=
  regularRun (bytes.drop p) = ascii "endstream" ∨ regularRun (bytes.drop p) = ascii "endobj"

/-- The first end of a stream from an offset on, and where reading goes on: behind `endstream`
and in front of `endobj`. -/
def FirstTerminator (bytes : Bytes) (offset : ℕ) : Option (ℕ × ℕ) → Prop
  | none => ∀ p, offset ≤ p → ¬EndsStream bytes p
  | some (p, next) => offset ≤ p ∧ (∀ q, offset ≤ q → q < p → ¬EndsStream bytes q) ∧
      (regularRun (bytes.drop p) = ascii "endstream" ∧ next = p + 9 ∨
        regularRun (bytes.drop p) = ascii "endobj" ∧ next = p)

theorem EndsStream.starts {bytes : Bytes} (h : EndsStream bytes p) :
    ∃ rest, bytes.drop p = 0x65 :: 0x6e :: 0x64 :: rest := by
  have hfront : regularRun (bytes.drop p) <+: bytes.drop p := List.takeWhile_prefix isRegular
  rcases h with hrun | hrun
  · rw [hrun] at hfront
    obtain ⟨rest, hrest⟩ := hfront
    exact ⟨_, hrest.symm⟩
  · rw [hrun] at hfront
    obtain ⟨rest, hrest⟩ := hfront
    exact ⟨_, hrest.symm⟩

theorem EndsStream.lt_length {bytes : Bytes} (h : EndsStream bytes p) : p + 3 ≤ bytes.length := by
  obtain ⟨rest, hrest⟩ := h.starts
  have hlength := congrArg List.length hrest
  simp only [List.length_drop, List.length_cons] at hlength
  omega

theorem recoveryTokenLoop_yields {room : ℕ} {token : Bytes} (h : l.At file p s)
    (hp : p ≤ file.logical.length) :
    (recoveryTokenLoop file room token l).Yields s fun result s' =>
      result.1 = token ++ (regularRun (file.logical.drop p)).take room ∧
      result.2.1 = p + ((regularRun (file.logical.drop p)).take room).length ∧
      result.2.2.At file result.2.1 s' := by
  have hend : ∀ {p : ℕ} {token : Bytes} {l : LiveInput} {s : Input}, l.At file p s →
      (l.tell file >>= fun r => pure (token, r) : Program Input Error (Bytes × ℕ × LiveInput)).Yields s
        fun result s' => result.1 = token ∧ result.2.1 = p ∧ result.2.2.At file p s' := by
    intro p token l s h
    refine h.tell.bind ?_
    rintro _ _ ⟨rfl, rfl⟩
    exact Program.yields_pure ⟨rfl, rfl, h⟩
  induction room generalizing p token l s with
  | zero =>
    refine (hend h).mono ?_
    rintro result s' ⟨htoken, hstop, hat⟩
    rw [List.take_zero, List.append_nil, List.length_nil, Nat.add_zero, hstop]
    exact ⟨htoken, rfl, hat⟩
  | succ room ih =>
    rw [recoveryTokenLoop]
    cases hrest : file.logical.drop p with
    | nil =>
      have hlength := List.drop_eq_nil_iff.mp hrest
      obtain rfl : p = file.logical.length := by omega
      refine (h.readByte_end le_rfl).bind ?_
      rintro ⟨next, l'⟩ s' ⟨rfl, hat⟩
      refine (hend hat).mono ?_
      rintro result t ⟨htoken, hstop, hat'⟩
      have hnone : (regularRun []).take (room + 1) = [] := rfl
      rw [hnone, List.append_nil, List.length_nil, Nat.add_zero, hstop]
      exact ⟨htoken, rfl, hat'⟩
    | cons byte rest =>
      obtain ⟨hbyte, hdrop⟩ := drop_eq_cons_iff.mp hrest
      obtain ⟨hlt, -⟩ := List.getElem?_eq_some_iff.mp hbyte
      refine (h.readByte hbyte).bind ?_
      rintro ⟨next, l'⟩ s' ⟨rfl, hat⟩
      dsimp only
      split_ifs with hdelimiter
      · refine (hat.unreadByte hlt).bind ?_
        intro l'' s'' hback
        refine (hend hback).mono ?_
        rintro result t ⟨htoken, hstop, hat'⟩
        rw [regularRun_cons_of_delimiter hdelimiter, List.take_nil, List.append_nil,
          List.length_nil, Nat.add_zero, hstop]
        exact ⟨htoken, rfl, hat'⟩
      · have hregular : isRegular byte = true := by
          rw [isRegular, isTokenDelimiter, Bool.eq_false_iff.mpr hdelimiter]
          rfl
        refine (ih hat hlt).mono ?_
        rintro result t ⟨htoken, hstop, hat'⟩
        rw [regularRun_cons_of_regular hregular, List.take_succ_cons, List.length_cons]
        rw [hdrop] at htoken hstop
        rw [htoken, hstop, List.append_assoc]
        refine ⟨rfl, by omega, ?_⟩
        rwa [hstop] at hat'

/-- A bound beyond the word does not matter. -/
theorem take_eq_iff_of_lt {word run : Bytes} {n : ℕ} (h : word.length < n) :
    run.take n = word ↔ run = word := by
  constructor
  · rintro rfl
    rw [List.length_take] at h
    rw [List.take_of_length_le (by omega)]
  · rintro rfl
    exact List.take_of_length_le h.le

/-- What a round has found, or where the next one is. -/
def RoundSpec (file : File) (p : ℕ) (s : Input) : Option (ℕ × ℕ) ⊕ LiveInput → Prop
  | .inl none => (∀ q, p ≤ q → ¬EndsStream file.logical q) ∧ InFile file s
  | .inl (some (candidate, next)) => candidate = p ∧
      (regularRun (file.logical.drop p) = ascii "endstream" ∧ next = p + 9 ∨
        regularRun (file.logical.drop p) = ascii "endobj" ∧ next = p)
  | .inr l => ¬EndsStream file.logical p ∧ p < file.logical.length ∧ l.At file (p + 1) s

theorem not_endsStream_of_short (h : file.logical.length < p + 3) (q : ℕ) (hq : p ≤ q) :
    ¬EndsStream file.logical q := by
  intro hends
  have hlength := hends.lt_length
  omega

theorem recoveryCandidate_yields {rest : Bytes} (h : l.At file (p + 3) s)
    (hrest : file.logical.drop p = 0x65 :: 0x6e :: 0x64 :: rest) :
    (recoveryCandidate file p l).Yields s fun outcome s' => RoundSpec file p s' outcome := by
  have hlength := congrArg List.length hrest
  simp only [List.length_drop, List.length_cons] at hlength
  have hdrop : file.logical.drop (p + 3) = rest := by
    rw [← List.drop_drop, hrest]
    rfl
  -- The run begins with the three bytes that have been read.
  have hrun : regularRun (file.logical.drop p) = ascii "end" ++ regularRun rest := by
    rw [hrest]
    rfl
  have hprefix : (regularRun rest).length ≤ rest.length :=
    (List.takeWhile_prefix isRegular).length_le
  refine (recoveryTokenLoop_yields h (by omega)).bind ?_
  rintro ⟨token, tokenEnd, l'⟩ s' ⟨htoken, hstop, hat⟩
  rw [hdrop] at htoken hstop
  dsimp only at htoken hstop hat ⊢
  have hword : ∀ word : Bytes, word.length < 17 → (token = ascii "end" ++ word ↔
      regularRun (file.logical.drop p) = ascii "end" ++ word) := by
    intro word hshort
    rw [htoken, hrun, List.append_cancel_left_eq, List.append_cancel_left_eq]
    exact take_eq_iff_of_lt hshort
  have hstream := hword (ascii "stream") (by decide)
  have hobj := hword (ascii "obj") (by decide)
  have htokenLength : tokenEnd = p + token.length := by
    rw [hstop, htoken, List.length_append, Nat.add_assoc]
    rfl
  split_ifs with hendstream hendobj
  · refine Program.yields_pure ⟨rfl, .inl ⟨hstream.mp hendstream, ?_⟩⟩
    rw [htokenLength, hendstream]
    rfl
  · exact Program.yields_pure ⟨rfl, .inr ⟨hobj.mp hendobj, rfl⟩⟩
  · have hpos : token.length = 3 + ((regularRun rest).take 17).length := by
      rw [htoken, List.length_append]
      rfl
    have htake := List.length_take_le' 17 (regularRun rest)
    have hback : tokenEnd = p + 1 + (token.length - 1) := by omega
    rw [hback] at hat
    refine (hat.unreadBytes (by omega)).bind ?_
    intro l'' s'' hat'
    refine Program.yields_pure ⟨?_, by omega, hat'⟩
    rintro (hends | hends)
    · exact hendstream (hstream.mpr hends)
    · exact hendobj (hobj.mpr hends)

theorem recoveryRound_yields (h : l.At file p s) :
    (recoveryRound file l).Yields s fun outcome s' => RoundSpec file p s' outcome := by
  rw [recoveryRound]
  refine h.tell.bind ?_
  rintro _ _ ⟨rfl, rfl⟩
  dsimp only
  cases hrest : file.logical.drop p with
  | nil =>
    have hlength := List.drop_eq_nil_iff.mp hrest
    refine (h.readByte_end hlength).bind ?_
    rintro ⟨_, l'⟩ s' ⟨rfl, hat⟩
    exact Program.yields_pure ⟨not_endsStream_of_short (by omega), hat.inFile le_rfl⟩
  | cons first rest =>
    obtain ⟨hfirst, hdrop⟩ := drop_eq_cons_iff.mp hrest
    obtain ⟨hlt, -⟩ := List.getElem?_eq_some_iff.mp hfirst
    refine (h.readByte hfirst).bind ?_
    rintro ⟨_, l₁⟩ s₁ ⟨rfl, hat₁⟩
    dsimp only
    split_ifs with hne
    · refine Program.yields_pure ⟨?_, hlt, hat₁⟩
      intro hends
      obtain ⟨_, hstarts⟩ := hends.starts
      rw [hrest, List.cons.injEq] at hstarts
      exact hne hstarts.1
    rw [not_not] at hne
    subst hne
    cases rest with
    | nil =>
      have hlength := List.drop_eq_nil_iff.mp hdrop
      refine (hat₁.readByte_end hlength).bind ?_
      rintro ⟨_, l'⟩ s' ⟨rfl, hat⟩
      exact Program.yields_pure ⟨not_endsStream_of_short (by omega), hat.inFile le_rfl⟩
    | cons second rest =>
      obtain ⟨hsecond, hdrop₂⟩ := drop_eq_cons_iff.mp hdrop
      obtain ⟨hlt₂, -⟩ := List.getElem?_eq_some_iff.mp hsecond
      refine (hat₁.readByte hsecond).bind ?_
      rintro ⟨_, l₂⟩ s₂ ⟨rfl, hat₂⟩
      dsimp only
      split_ifs with hne
      · refine (hat₂.unreadByte hlt₂).bind ?_
        intro l' s' hat
        refine Program.yields_pure ⟨?_, hlt, hat⟩
        intro hends
        obtain ⟨_, hstarts⟩ := hends.starts
        rw [hrest, List.cons.injEq, List.cons.injEq] at hstarts
        exact hne hstarts.2.1
      rw [not_not] at hne
      subst hne
      cases rest with
      | nil =>
        have hlength := List.drop_eq_nil_iff.mp hdrop₂
        refine (hat₂.readByte_end hlength).bind ?_
        rintro ⟨_, l'⟩ s' ⟨rfl, hat⟩
        exact Program.yields_pure ⟨not_endsStream_of_short (by omega), hat.inFile le_rfl⟩
      | cons third rest =>
        obtain ⟨hthird, hdrop₃⟩ := drop_eq_cons_iff.mp hdrop₂
        obtain ⟨hlt₃, -⟩ := List.getElem?_eq_some_iff.mp hthird
        refine (hat₂.readByte hthird).bind ?_
        rintro ⟨_, l₃⟩ s₃ ⟨rfl, hat₃⟩
        dsimp only
        split_ifs with hne
        · refine (hat₃.unreadByte hlt₃).bind ?_
          intro l' s' hat
          refine (hat.unreadByte hlt₂).bind ?_
          intro l'' s'' hat'
          refine Program.yields_pure ⟨?_, hlt, hat'⟩
          intro hends
          obtain ⟨_, hstarts⟩ := hends.starts
          rw [hrest, List.cons.injEq, List.cons.injEq, List.cons.injEq] at hstarts
          exact hne hstarts.2.2.1
        rw [not_not] at hne
        subst hne
        exact recoveryCandidate_yields hat₃ hrest

theorem recoveryLoop_yields {fuel : ℕ} (h : l.At file p s)
    (hpos : 0 < fuel) (hfuel : file.logical.length < fuel + p) :
    (recoveryLoop file fuel l).Yields s fun result s' =>
      FirstTerminator file.logical p result ∧ (result = none → InFile file s') := by
  induction fuel generalizing p l s with
  | zero => exact absurd hpos (lt_irrefl 0)
  | succ fuel ih =>
    rw [recoveryLoop]
    refine (recoveryRound_yields h).bind ?_
    rintro ((_ | ⟨candidate, next⟩) | l') s' hround
    · exact Program.yields_pure ⟨hround.1, fun _ => hround.2⟩
    · obtain ⟨rfl, hkeyword⟩ := hround
      refine Program.yields_pure ⟨⟨le_rfl, fun q hq hlt => ?_, hkeyword⟩, nofun⟩
      omega
    · obtain ⟨hnot, hlt, hat⟩ := hround
      refine (ih hat (by omega) (by omega)).mono ?_
      rintro result t ⟨hfirst, hplace⟩
      refine ⟨?_, hplace⟩
      cases result with
      | none =>
        intro q hq
        rcases Nat.eq_or_lt_of_le hq with rfl | hq
        · exact hnot
        · exact hfirst q hq
      | some found =>
        obtain ⟨hle, hbefore, hkeyword⟩ := hfirst
        refine ⟨by omega, fun q hq hlt => ?_, hkeyword⟩
        rcases Nat.eq_or_lt_of_le hq with rfl | hq
        · exact hnot
        · exact hbefore q hq hlt

/-- The search finds the first end of a stream, or tells that there is none. -/
theorem findStreamRecoveryTerminator_yields {offset : ℕ}
    (h : file.headerOffset + offset ≤ maxOffset) :
    (findStreamRecoveryTerminator file offset).Yields s fun result s' =>
      FirstTerminator file.logical offset result ∧ (result = none → InFile file s') := by
  refine (LiveInput.seek_at h).bind ?_
  intro l s' hat
  refine recoveryLoop_yields hat (Nat.succ_pos _) ?_
  rw [File.length_logical]
  omega

/-! ## Framing tokens -/

theorem attemptToken_eq (bytes : Bytes) : ∃ token,
    attemptToken bytes =
        .ok (token, (({ input := bytes } : Tokenizer).readQpdfToken 0).2.pos) ∧
      (({ input := bytes } : Tokenizer).readQpdfToken 0).1 = .ok token := by
  rw [attemptToken, Tokenizer.readQpdfToken_start]
  exact ⟨_, rfl, rfl⟩

/-- A complete token of the window is the token of the file. -/
theorem attemptToken_of_complete {bytes : Bytes} (back : Bytes)
    (hcomplete : isComplete attemptToken bytes = true) :
    attemptToken (bytes ++ back) = attemptToken bytes := by
  obtain ⟨token, hattempt, htoken⟩ := attemptToken_eq bytes
  rw [isComplete, hattempt, decide_eq_true_eq] at hcomplete
  obtain ⟨hsame, hstop⟩ := Tokenizer.readQpdfToken_of_window bytes back hcomplete
  obtain ⟨token', hattempt', htoken'⟩ := attemptToken_eq (bytes ++ back)
  rw [hsame, htoken, Except.ok.injEq] at htoken'
  rw [hattempt', hattempt, htoken', hstop]

/-- The bytes behind a place and a window are those behind the window. -/
theorem drop_of_window {bytes back : Bytes} (hrest : file.logical.drop p = bytes ++ back) :
    file.logical.drop (p + bytes.length) = back := by
  rw [← List.drop_drop, hrest, List.drop_left]

theorem scanLoop_finish {bytes back : Bytes} {fuel : ℕ} {more : Bool}
    (hrest : file.logical.drop p = bytes ++ back) (hp : file.headerOffset + p ≤ maxOffset)
    (hlast : file.headerOffset + s.lastOffset ≤ maxOffset)
    (hstop : (isComplete attemptToken bytes || !more) = true) (hend : more = false → back = []) :
    (scanLoop file attemptToken p (fuel + 1) bytes more).Yields s fun token s' =>
      (({ input := bytes ++ back } : Tokenizer).readQpdfToken 0).1 = .ok token ∧
        InPlace file s' ∧ file.headerOffset + s'.lastOffset ≤ maxOffset := by
  have hsame : attemptToken (bytes ++ back) = attemptToken bytes := by
    rcases Bool.or_eq_true_iff.mp hstop with hcomplete | hmore
    · exact attemptToken_of_complete back hcomplete
    · rw [hend (by simpa using hmore), List.append_nil]
  obtain ⟨token, hattempt, htoken⟩ := attemptToken_eq (bytes ++ back)
  have hle := Tokenizer.readQpdfToken_pos_le (bytes ++ back)
  generalize (({ input := bytes ++ back } : Tokenizer).readQpdfToken 0).2.pos = stop
    at hattempt hle
  have hroom := congrArg List.length hrest
  rw [List.length_drop, File.length_logical] at hroom
  have hmax := file.length_le
  rw [scanLoop, if_pos hstop, ← hsame, hattempt]
  refine (Program.Yields.bind (P := fun result s' => result = (token, stop) ∧ s' = s)
    ⟨_, s, rfl, rfl, rfl⟩ ?_)
  rintro _ _ ⟨rfl, rfl⟩
  refine (seek_yields (by omega)).bind ?_
  rintro _ s' ⟨hposition, hkept⟩
  refine Program.yields_pure ⟨htoken, ⟨by omega, by omega⟩, by rw [hkept]; exact hlast⟩

theorem scanLoop_yields {fuel : ℕ} {bytes back : Bytes} {more : Bool}
    (hrest : file.logical.drop p = bytes ++ back) (hp : file.headerOffset + p ≤ maxOffset)
    (hmore : more = true → s.position = file.headerOffset + p + bytes.length)
    (hend : more = false → back = [])
    (hlast : more = false ∨ bytes ≠ [] → file.headerOffset + s.lastOffset ≤ maxOffset)
    (hfuel : back.length + (if more then 2 else 1) ≤ fuel) :
    (scanLoop file attemptToken p fuel bytes more).Yields s fun token s' =>
      (({ input := bytes ++ back } : Tokenizer).readQpdfToken 0).1 = .ok token ∧
        InPlace file s' ∧ file.headerOffset + s'.lastOffset ≤ maxOffset := by
  induction fuel generalizing bytes back more s with
  | zero => split_ifs at hfuel <;> omega
  | succ fuel ih =>
    by_cases hstop : (isComplete attemptToken bytes || !more) = true
    · refine scanLoop_finish hrest hp (hlast ?_) hstop hend
      rcases Bool.or_eq_true_iff.mp hstop with hcomplete | hfalse
      · right
        rintro rfl
        cases hcomplete
      · exact .inl (by simpa using hfalse)
    · rw [scanLoop, if_neg hstop]
      obtain rfl : more = true := by
        cases more
        · exact absurd (by simp) hstop
        · rfl
      have hposition := hmore rfl
      rw [Nat.add_assoc] at hposition
      have hroom : 0 < max bytes.length inputChunk := lt_max_of_lt_right (by decide)
      refine ((read_yields hposition).bind (T := fun result s' =>
        result.1 = bytes ++ back.take (max bytes.length inputChunk) ∧
          result.2 = !(back.take (max bytes.length inputChunk)).isEmpty ∧
          (result.2 = true → s'.position = file.headerOffset + p + result.1.length) ∧
          file.headerOffset + s'.lastOffset ≤ maxOffset) ?_).bind ?_
      · rintro next s' ⟨hnext, hmoved, hkept⟩
        rw [drop_of_window hrest] at hnext
        rw [← hnext]
        refine Program.yields_pure ⟨rfl, rfl, fun hne => ?_, ?_⟩
        · have hnonempty : next ≠ [] := by
            rintro rfl
            cases hne
          rw [if_neg fun hnot => hnonempty hnot.1] at hmoved
          rw [hmoved, List.length_append]
          omega
        · have hmax := file.length_le
          have hheader := file.header_le
          have hlength := congrArg List.length hrest
          rw [List.length_drop, List.length_append] at hlength
          rw [File.length_logical] at hkept hlength
          rcases le_max_iff.mp hkept with h | h <;> omega
      · rintro ⟨bytes', more'⟩ s' ⟨hbytes', hmore', hposition', hlast'⟩
        dsimp only at hbytes' hmore' hposition' ⊢
        have hback : bytes ++ back =
            bytes' ++ back.drop (max bytes.length inputChunk) := by
          rw [hbytes', List.append_assoc, List.take_append_drop]
        rw [hback]
        refine ih (hback ▸ hrest) hposition' ?_ (fun _ => hlast') ?_
        · intro hfalse
          rw [hmore', Bool.not_eq_false', List.isEmpty_iff, List.take_eq_nil_iff] at hfalse
          rcases hfalse with hzero | rfl
          · omega
          · exact List.drop_nil
        · rw [if_pos rfl] at hfuel
          cases hcase : back.isEmpty with
          | true =>
            rw [List.isEmpty_iff] at hcase
            subst hcase
            rw [List.take_nil] at hmore'
            rw [hmore', List.drop_nil]
            simp at hfuel ⊢
            omega
          | false =>
            have hlength := List.length_pos_of_ne_nil (List.isEmpty_eq_false_iff.mp hcase)
            rw [List.length_drop]
            split_ifs <;> omega

/-- The next token of the bytes from a place on. -/
def NextToken (bytes : Bytes) (p : ℕ) (token : Token) : Prop :=
  (({ input := bytes.drop p } : Tokenizer).readQpdfToken 0).1 = .ok token

/-- The word is the next token. -/
def NextWord (bytes : Bytes) (p : ℕ) (word : Bytes) : Prop :=
  ∃ token, NextToken bytes p token ∧ token.isWordValue word = true

theorem NextToken.unique {bytes : Bytes} {token token' : Token} (h : NextToken bytes p token)
    (h' : NextToken bytes p token') : token = token' := by
  rw [NextToken, h, Except.ok.injEq] at h'
  exact h'

theorem readTokenFromInput_yields (hs : InPlace file s) :
    (readTokenFromInput file).Yields s fun result s' =>
      NextToken file.logical (s.position - file.headerOffset) result.1 ∧ InPlace file s' := by
  obtain ⟨p, hp⟩ := Nat.exists_eq_add_of_le hs.1
  have hmax := hs.2
  have hback : s.position - file.headerOffset = p := by rw [hp, Nat.add_sub_cancel_left]
  have hscan : (scanForward file attemptToken).Yields s fun token s' =>
      NextToken file.logical p token ∧ InPlace file s' ∧
        file.headerOffset + s'.lastOffset ≤ maxOffset := by
    refine tell_yields.bind ?_
    rintro start _ ⟨rfl, rfl⟩
    rw [hback]
    have hwindow : file.logical.drop p = [] ++ file.logical.drop p := rfl
    refine scanLoop_yields hwindow (by omega) (fun _ => hp) nofun (by simp) ?_
    rw [if_pos rfl, List.length_drop, File.length_logical]
    omega
  rw [hback]
  refine tell_yields.bind ?_
  rintro start _ ⟨rfl, -⟩
  refine hscan.bind ?_
  rintro token s₁ ⟨htoken, hplace, hlast⟩
  refine Program.Yields.bind (P := fun _ s' => InPlace file s') ?_ ?_
  · rw [tokenStart]
    split_ifs
    · apply Program.yields_get_bind
      refine (seek_yields hlast).bind ?_
      rintro _ s' ⟨hposition, -⟩
      exact Program.yields_pure ⟨by omega, by omega⟩
    · exact Program.yields_pure hplace
  · intro offset s₂ hplace₂
    exact Program.yields_modify_bind (Program.yields_pure ⟨htoken, hplace₂⟩)

/-! ## The data of a stream -/

/-- Every warning is delivered. -/
def Environment.Delivers (env : Environment) : Prop := ∀ n, env.deliverWarning n = .ok ()

theorem pushWarning_yields (henv : env.Delivers) (offset : ℕ) (message : Bytes) :
    (pushWarning env offset message).Yields s fun _ s' => s'.position = s.position := by
  apply Program.yields_get_bind
  apply Program.yields_modify_bind
  exact ⟨(), _, congrArg some (Prod.ext (henv _) rfl), rfl⟩

theorem validateLineEndLoop_yields {fuel : ℕ} (henv : env.Delivers) (hs : InFile file s)
    (hfuel : file.contents.length < fuel + s.position) :
    (validateLineEndLoop env file fuel).Yields s fun _ s' => InFile file s' := by
  have hwarn : ∀ {s : Input} (message : Bytes), InFile file s →
      (do let offset ← tell file
          pushWarning env offset message : Program Input Error Unit).Yields s
        fun _ s' => InFile file s' ∧ s'.position = s.position := by
    intro s message hs
    refine tell_yields.bind ?_
    rintro offset _ ⟨rfl, -⟩
    refine (pushWarning_yields henv offset message).mono ?_
    rintro _ s' hposition
    exact ⟨⟨hposition ▸ hs.1, hposition ▸ hs.2⟩, hposition⟩
  induction fuel generalizing s with
  | zero =>
    have hle := hs.2
    omega
  | succ fuel ih =>
    rw [validateLineEndLoop]
    refine (readByte_yields hs).bind ?_
    rintro next s₁ ⟨hs₁, hmoved⟩
    cases next with
    | none => exact Program.yields_pure hs₁
    | some byte =>
      have hmoved := hmoved rfl
      dsimp only
      split_ifs
      · exact Program.yields_pure hs₁
      · refine (readByte_yields hs₁).bind ?_
        rintro behind s₂ ⟨hs₂, -⟩
        cases behind with
        | none => exact Program.yields_pure hs₂
        | some byte =>
          dsimp only
          split_ifs
          · exact Program.yields_pure hs₂
          · refine (unreadByte_yields hs₂).bind ?_
            intro _ s₃ hs₃
            exact (hwarn _ hs₃).mono fun _ _ h => h.1
      · refine (unreadByte_yields hs₁).bind ?_
        intro _ s₂ hs₂
        exact (hwarn _ hs₂).mono fun _ _ h => h.1
      · refine tell_yields.bind ?_
        rintro offset _ ⟨rfl, -⟩
        refine (pushWarning_yields henv offset _).bind ?_
        intro _ s₂ hposition
        refine ih ⟨hposition ▸ hs₁.1, hposition ▸ hs₁.2⟩ ?_
        omega

theorem validateStreamLineEnd_yields (henv : env.Delivers) (hs : InFile file s) :
    (validateStreamLineEnd env file).Yields s fun _ s' => InFile file s' :=
  validateLineEndLoop_yields henv hs (by omega)

theorem NextWord.lt_length {bytes word : Bytes} (h : NextWord bytes p word) : p < bytes.length := by
  by_contra hlength
  obtain ⟨token, htoken, hword⟩ := h
  rw [NextToken, List.drop_of_length_le (by omega)] at htoken
  have hend : (({ input := [] } : Tokenizer).readQpdfToken 0).1.map Token.tokenType = .ok .eof := rfl
  rw [htoken] at hend
  rw [Token.isWordValue, Except.ok.inj hend] at hword
  exact absurd hword (by simp)

/-- The number of bytes in front of the end of the stream, none if there is no end. -/
def recoveredLength (offset : ℕ) (terminator : Option (ℕ × ℕ)) : ℕ :=
  (terminator.map fun found => found.1 - offset).getD 0

theorem next_le_of_terminator {bytes : Bytes} {offset next : ℕ}
    (h : FirstTerminator bytes offset (some (p, next))) : next ≤ bytes.length := by
  have hfront : regularRun (bytes.drop p) <+: bytes.drop p := List.takeWhile_prefix isRegular
  have hlength := hfront.length_le
  rw [List.length_drop] at hlength
  obtain ⟨-, -, ⟨hrun, rfl⟩ | ⟨hrun, rfl⟩⟩ := h
  · rw [hrun] at hlength
    have hword : (ascii "endstream").length = 9 := rfl
    omega
  · rw [hrun] at hlength
    have hword : (ascii "endobj").length = 6 := rfl
    omega

theorem recoverStreamLength_yields {offset : ℕ} (henv : env.Delivers)
    (hp : file.headerOffset + offset ≤ maxOffset) :
    (recoverStreamLength env file offset).Yields s fun length s' =>
      (∃ terminator, FirstTerminator file.logical offset terminator ∧
        length = recoveredLength offset terminator) ∧ InPlace file s' := by
  have hmax := file.length_le
  have hheader := file.header_le
  refine (pushWarning_yields henv _ _).bind ?_
  intro _ s₁ _
  refine (findStreamRecoveryTerminator_yields hp).bind ?_
  rintro terminator s₂ ⟨hfirst, hplace⟩
  refine Program.Yields.bind (P := fun length s' =>
    length = recoveredLength offset terminator ∧ InPlace file s') ?_ ?_
  · cases terminator with
    | none => exact Program.yields_pure ⟨rfl, (hplace rfl).inPlace⟩
    | some found =>
      obtain ⟨position, next⟩ := found
      have hnext := next_le_of_terminator hfirst
      rw [File.length_logical] at hnext
      refine (seek_yields (by omega)).bind ?_
      rintro _ s₃ ⟨hposition, -⟩
      exact Program.yields_pure ⟨rfl, by omega, by omega⟩
  · rintro length s₃ ⟨hlength, hplace₃⟩
    refine (pushWarning_yields henv _ _).bind ?_
    intro _ s₄ hposition
    exact Program.yields_pure ⟨⟨terminator, hfirst, hlength⟩,
      hposition ▸ hplace₃.1, hposition ▸ hplace₃.2⟩

theorem recoverFrom_yields {offset objectHeaderOffset : ℕ} (henv : env.Delivers)
    (hrecovery : env.attemptRecovery = true) (hp : file.headerOffset + offset ≤ maxOffset)
    (error : Error) : (recoverFrom env file error objectHeaderOffset offset).Yields s
      fun length s' => (∃ terminator, FirstTerminator file.logical offset terminator ∧
        length = recoveredLength offset terminator) ∧ InPlace file s' := by
  rw [recoverFrom, hrecovery]
  refine Program.Yields.bind (P := fun _ _ => True) ?_
    fun _ s' _ => recoverStreamLength_yields henv hp
  cases error with
  | parse => exact (pushWarning_yields henv _ _).mono fun _ _ _ => trivial
  | system => exact Program.yields_pure trivial
  | other => exact Program.yields_pure trivial

theorem seekRelative_yields (h : s.position + count ≤ maxOffset) :
    (seekRelative count).Yields s fun _ s' => s'.position = s.position + count := by
  apply Program.yields_get_bind
  rw [if_neg (by omega)]
  exact Program.yields_modify_bind (Program.yields_modify rfl)

theorem seekRelative_fails (h : maxOffset < s.position + count) (hs : s.position ≤ maxOffset) :
    (seekRelative count).FailsWith s (.parse s.position (addOverflowMessage count s.position)) := by
  change Program.FailsWith (if maxOffset - s.position < count then _ else _) s _
  rw [if_pos (by omega)]
  exact Program.failsWith_fail _

/-- Behind the declared length the next token is read. -/
theorem checkFraming_yields {offset objectHeaderOffset length : ℕ} {P : ℕ → Input → Prop}
    (hp : file.headerOffset + offset + length ≤ maxOffset)
    (hkept : NextWord file.logical (offset + length) (ascii "endstream") →
      ∀ s', InPlace file s' → P length s')
    (hrecovered : ¬NextWord file.logical (offset + length) (ascii "endstream") → ∀ s' at',
      (recoverFrom env file (.parse at' expectedEndstreamMessage) objectHeaderOffset
        offset).Yields s' P) :
    (checkFraming env file length objectHeaderOffset offset).Yields s P := by
  refine (seek_yields (by omega)).bind ?_
  rintro _ s₁ ⟨hseek, -⟩
  refine (seekRelative_yields (by omega)).bind ?_
  intro _ s₂ hposition
  rw [hseek] at hposition
  have hplace : InPlace file s₂ := ⟨by omega, by omega⟩
  have hback : s₂.position - file.headerOffset = offset + length := by omega
  refine (readTokenFromInput_yields hplace).bind ?_
  rintro ⟨token, start⟩ s₃ ⟨htoken, hplace₃⟩
  rw [hback] at htoken
  dsimp only
  split_ifs with hword
  · exact Program.yields_pure (hkept ⟨token, htoken, hword⟩ s₃ hplace₃)
  · refine hrecovered ?_ s₃ start
    rintro ⟨token', htoken', hword'⟩
    rw [htoken'.unique htoken] at hword'
    exact hword hword'

theorem streamLength_answers (env : Environment) (dict : ObjectValue) (objectHeaderOffset : ℕ)
    (s : Input) : ∃ lookup s', streamLength env dict objectHeaderOffset s = some (lookup, s') := by
  cases dict with
  | dictionary entries =>
    rw [streamLength]
    cases entries.lookup (ascii "/Length") with
    | none => exact ⟨_, _, rfl⟩
    | some length =>
      have hvalue : ∃ value s', tryDereference env length s = some (value, s') := by
        cases length <;> exact ⟨_, _, rfl⟩
      obtain ⟨value, s', hvalue⟩ := hvalue
      change ∃ lookup s', Program.bind _ _ s = _
      rw [Program.bind, hvalue]
      cases value with
      | error e => exact ⟨_, _, rfl⟩
      | ok value => exact ⟨_, _, rfl⟩
  | _ => exact ⟨_, _, rfl⟩

section ReadStream

variable {dict : ObjectValue} {objectHeaderOffset : ℕ} {lookup : Except Error ℕ} {s₁ s₂ : Input}

/-- Reading a stream after its line end and the lookup of its length. -/
theorem readStream_yields {P : ℕ → Prop} (henv : env.Delivers)
    (hvalidate : validateStreamLineEnd env file s = some (.ok (), s₁))
    (hlookup : streamLength env dict objectHeaderOffset s₁ = some (lookup, s₂))
    (hsettle : (settleLength env file lookup objectHeaderOffset
      (s₁.position - file.headerOffset)).Yields s₂ fun length s' => P length ∧ InPlace file s') :
    (readStream env file dict objectHeaderOffset).Yields s fun stream _ =>
      stream.streamDict = dict ∧ stream.streamOffset = s₁.position - file.headerOffset ∧
        P stream.streamLength := by
  refine Program.Yields.bind (P := fun _ s' => s₁ = s') ⟨(), s₁, hvalidate, rfl⟩ ?_
  rintro _ _ rfl
  refine tell_yields.bind ?_
  rintro offset _ ⟨rfl, rfl⟩
  refine Program.Yields.bind (P := fun result s' => lookup = result ∧ s₂ = s')
    ⟨lookup, s₂, by rw [Program.attempt, hlookup]; rfl, rfl, rfl⟩ ?_
  rintro _ _ ⟨rfl, rfl⟩
  refine hsettle.bind ?_
  rintro length s₃ ⟨hlength, hplace⟩
  refine (readTokenFromInput_yields hplace).bind ?_
  rintro ⟨trailing, start⟩ s₄ -
  refine Program.Yields.bind (P := fun _ _ => True) ?_
    fun _ _ _ => Program.yields_pure ⟨rfl, rfl, hlength⟩
  rw [Program.onlyIf]
  split_ifs
  · exact (pushWarning_yields henv _ _).mono fun _ _ _ => trivial
  · exact Program.yields_pure trivial

/-- Reading a stream fails with the error about its length. -/
theorem readStream_fails {error : Error}
    (hvalidate : validateStreamLineEnd env file s = some (.ok (), s₁))
    (hlookup : streamLength env dict objectHeaderOffset s₁ = some (lookup, s₂))
    (hsettle : (settleLength env file lookup objectHeaderOffset
      (s₁.position - file.headerOffset)).FailsWith s₂ error) :
    (readStream env file dict objectHeaderOffset).FailsWith s error := by
  refine Program.Yields.bind_fails (P := fun _ s' => s₁ = s') ⟨(), s₁, hvalidate, rfl⟩ ?_
  rintro _ _ rfl
  refine tell_yields.bind_fails ?_
  rintro offset _ ⟨rfl, rfl⟩
  refine Program.Yields.bind_fails (P := fun result s' => lookup = result ∧ s₂ = s')
    ⟨lookup, s₂, by rw [Program.attempt, hlookup]; rfl, rfl, rfl⟩ ?_
  rintro _ _ ⟨rfl, rfl⟩
  exact hsettle.bind

theorem settleLength_tooLong {length offset : ℕ} (hp : file.headerOffset + offset ≤ maxOffset)
    (hlong : maxOffset < file.headerOffset + offset + length) :
    (settleLength env file (.ok length) objectHeaderOffset offset).FailsWith s
      (.parse (file.headerOffset + offset)
        (addOverflowMessage length (file.headerOffset + offset))) := by
  refine (seek_yields (by omega)).bind_fails ?_
  rintro _ s₁ ⟨hposition, -⟩
  rw [← hposition]
  exact (seekRelative_fails (by omega) (by omega)).bind

end ReadStream

/-- The declared length cannot be kept, for a reason from which streams are recovered. -/
def Mismatch (file : File) (offset : ℕ) (lookup : Except Error ℕ) : Prop :=
  match lookup with
  | .ok length => file.headerOffset + offset + length ≤ maxOffset ∧
      ¬NextWord file.logical (offset + length) (ascii "endstream")
  | .error error => isRecoverableStreamError error = true

/-- What `read_stream` gives, by what the lookup of `/Length` gives for the data at an offset. -/
structure ReadsExtent (env : Environment) (file : File) (dict : ObjectValue)
    (objectHeaderOffset : ℕ) (s : Input) (offset : ℕ) (lookup : Except Error ℕ) : Prop where
  declared : ∀ length, lookup = .ok length →
    NextWord file.logical (offset + length) (ascii "endstream") →
    ((file.logical.drop offset).take length).length = length ∧
      (readStream env file dict objectHeaderOffset).Yields s fun stream _ =>
        stream.streamDict = dict ∧ stream.streamOffset = offset ∧ stream.streamLength = length
  recovered : env.attemptRecovery = true → Mismatch file offset lookup →
    (readStream env file dict objectHeaderOffset).Yields s fun stream _ =>
      stream.streamDict = dict ∧ stream.streamOffset = offset ∧
        ∃ terminator, FirstTerminator file.logical offset terminator ∧
          stream.streamLength = recoveredLength offset terminator
  tooLong : ∀ length, lookup = .ok length → maxOffset < file.headerOffset + offset + length →
    (readStream env file dict objectHeaderOffset).FailsWith s
      (.parse (file.headerOffset + offset)
        (addOverflowMessage length (file.headerOffset + offset)))
  unresolved : ∀ error, lookup = .error error → isRecoverableStreamError error = false →
    (readStream env file dict objectHeaderOffset).FailsWith s error

theorem readStream_readsExtent {dict : ObjectValue} {objectHeaderOffset : ℕ}
    {lookup : Except Error ℕ} {s₁ s₂ : Input} (henv : env.Delivers)
    (hvalidate : validateStreamLineEnd env file s = some (.ok (), s₁)) (hs₁ : InFile file s₁)
    (hlookup : streamLength env dict objectHeaderOffset s₁ = some (lookup, s₂)) :
    ReadsExtent env file dict objectHeaderOffset s (s₁.position - file.headerOffset) lookup := by
  have hmax := file.length_le
  obtain ⟨p, hposition⟩ := Nat.exists_eq_add_of_le hs₁.1
  have hle := hs₁.2
  have hback : s₁.position - file.headerOffset = p := by omega
  constructor
  · rintro length rfl hnext
    have hlt := hnext.lt_length
    have hlogical := file.length_logical
    refine ⟨?_, readStream_yields (P := fun n => n = length) henv hvalidate hlookup ?_⟩
    · rw [List.length_take, List.length_drop]
      omega
    · exact checkFraming_yields (by omega) (fun _ s' hplace => ⟨rfl, hplace⟩)
        fun hnot => absurd hnext hnot
  · intro hrecovery hmismatch
    refine readStream_yields (P := fun n => ∃ terminator,
      FirstTerminator file.logical (s₁.position - file.headerOffset) terminator ∧
        n = recoveredLength (s₁.position - file.headerOffset) terminator)
      henv hvalidate hlookup ?_
    cases lookup with
    | ok length =>
      obtain ⟨hroom, hnot⟩ : _ ∧ _ := hmismatch
      refine checkFraming_yields hroom (fun hnext => absurd hnext hnot) ?_
      intro _ s' start
      exact recoverFrom_yields henv hrecovery (by omega) _
    | error error =>
      have hrecoverable : isRecoverableStreamError error = true := hmismatch
      rw [settleLength, if_pos hrecoverable]
      exact recoverFrom_yields henv hrecovery (by omega) _
  · rintro length rfl hlong
    exact readStream_fails hvalidate hlookup (settleLength_tooLong (by omega) hlong)
  · rintro error rfl hunrecoverable
    refine readStream_fails hvalidate hlookup ?_
    rw [settleLength, if_neg (by rw [hunrecoverable]; exact Bool.false_ne_true)]
    exact Program.failsWith_fail error

/-- The end of a damaged stream is the first place where a run of regular bytes is one of the
keywords; a stream has its declared length where `endstream` is the next token behind it, and
else, with recovery enabled, the length up to that end. -/
theorem readStream_extent (env : Environment) (file : File) (henv : env.Delivers) :
    (∀ offset s, file.headerOffset + offset ≤ maxOffset →
      (findStreamRecoveryTerminator file offset).Yields s fun result _ =>
        FirstTerminator file.logical offset result) ∧
    ∀ dict objectHeaderOffset s, InFile file s → ∃ s₁ lookup s₂,
      validateStreamLineEnd env file s = some (.ok (), s₁) ∧
      streamLength env dict objectHeaderOffset s₁ = some (lookup, s₂) ∧
      ReadsExtent env file dict objectHeaderOffset s (s₁.position - file.headerOffset)
        lookup := by
  constructor
  · intro offset s hp
    exact (findStreamRecoveryTerminator_yields hp).mono fun _ _ h => h.1
  · intro dict objectHeaderOffset s hs
    obtain ⟨_, s₁, hvalidate, hs₁⟩ := validateStreamLineEnd_yields henv hs
    obtain ⟨lookup, s₂, hlookup⟩ := streamLength_answers env dict objectHeaderOffset s₁
    exact ⟨s₁, lookup, s₂, hvalidate, hlookup,
      readStream_readsExtent henv hvalidate hs₁ hlookup⟩

/-- Reads hand over all there is room for. -/
def wholeReads (contents : Bytes) (h : contents.length ≤ maxOffset) : File where
  contents := contents
  headerOffset := 0
  give := fun _ room => room
  give_pos := fun _ _ h => h
  give_le := fun _ _ => le_rfl
  length_le := h
  header_le := Nat.zero_le _

def recoveringEnvironment : Environment where
  attemptRecovery := true
  deliverWarning := fun _ => .ok ()
  resolve := fun _ s => (.error .other, s)

/-- The bytes behind the keyword `stream` of a small object. -/
def smallStream : File := wholeReads (ascii "\nabc endstream endobj") (by decide)

def dictOfLength (length : ℤ) : ObjectValue := .dictionary [(ascii "/Length", .integer length)]

/-- A stream of three bytes. -/
theorem readStream_extent_threeBytes :
    (readStream recoveringEnvironment smallStream (dictOfLength 3) 0).Yields ⟨0, 0, 0, []⟩
      fun stream _ => stream.streamOffset = 1 ∧ stream.streamLength = 3 := by
  obtain ⟨s₁, lookup, s₂, hvalidate, hlookup, h⟩ :=
    (readStream_extent recoveringEnvironment smallStream fun _ => rfl).2
      (dictOfLength 3) 0 ⟨0, 0, 0, []⟩ ⟨Nat.zero_le _, by decide⟩
  have hline : validateStreamLineEnd recoveringEnvironment smallStream ⟨0, 0, 0, []⟩ =
      some (.ok (), ⟨1, 0, 1, []⟩) := by decide
  rw [hline] at hvalidate
  cases hvalidate
  have hlength : streamLength recoveringEnvironment (dictOfLength 3) 0 ⟨1, 0, 1, []⟩ =
      some (.ok 3, ⟨1, 0, 1, []⟩) := by decide
  rw [hlength] at hlookup
  cases hlookup
  refine (h.declared 3 rfl ⟨_, rfl, by decide⟩).2.mono ?_
  rintro stream _ ⟨-, hoffset, hlength⟩
  exact ⟨hoffset, hlength⟩

/-- A length that would lead beyond the largest offset is not recovered from: there is no
stream, although recovery is enabled and there is no `endstream` behind the length. -/
theorem readStream_lengthBeyondOffsets :
    streamLength recoveringEnvironment (dictOfLength (2 ^ 63 - 1)) 0 ⟨1, 0, 1, []⟩ =
        some (.ok (2 ^ 63 - 1), ⟨1, 0, 1, []⟩) ∧
      ¬NextWord smallStream.logical (1 + (2 ^ 63 - 1)) (ascii "endstream") ∧
      ¬(readStream recoveringEnvironment smallStream (dictOfLength (2 ^ 63 - 1)) 0).Yields
        ⟨0, 0, 0, []⟩ fun _ _ => True := by
  have hlookup : streamLength recoveringEnvironment (dictOfLength (2 ^ 63 - 1)) 0
      ⟨1, 0, 1, []⟩ = some (.ok (2 ^ 63 - 1), ⟨1, 0, 1, []⟩) := by decide
  have hline : validateStreamLineEnd recoveringEnvironment smallStream ⟨0, 0, 0, []⟩ =
      some (.ok (), ⟨1, 0, 1, []⟩) := by decide
  refine ⟨hlookup, fun hnext => ?_, ?_⟩
  · have hlt := hnext.lt_length
    have hlength : smallStream.logical.length = 21 := rfl
    omega
  · refine (readStream_fails hline hlookup (settleLength_tooLong ?_ ?_)).not_yields
    · decide
    · decide

end Flpdf.Streams
