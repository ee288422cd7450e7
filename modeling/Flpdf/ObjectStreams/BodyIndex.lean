import Flpdf.Effects.Program
import Flpdf.ObjectStreams.Emission
import Mathlib.Data.Finset.Card
import Mathlib.Data.Finset.Range

/-!
# The index of an object stream

The two copies of the emission have the same outcome, and the table in front of a body leads
the reader to the first byte of each member.
-/

namespace Flpdf

variable {σ ε τ : Type} (write : MemberWriter σ ε τ)

/-! ## What the writer emits -/

/-- The bytes that the writer emits for each member, until it fails. -/
def memberBytes : ℕ → List (MemberRef × τ) → σ → Except ε (List Bytes) × σ
  | _, [], s => (.ok [], s)
  | index, member :: members, s =>
    match write s index member.1 member.2 with
    | (⟨_, .error e⟩, s) => (.error e, s)
    | (⟨chunks, .ok ()⟩, s) =>
      match memberBytes (index + 1) members s with
      | (.error e, s) => (.error e, s)
      | (.ok emitted, s) => (.ok (chunks.flatten :: emitted), s)

/-- The members' bytes, each with one newline behind it. -/
def objectsOf (emitted : List Bytes) : Bytes := emitted.flatMap fun bytes => bytes ++ [0x0a]

/-- Where the members begin, behind `base` bytes. -/
def offsetsFrom : ℕ → List Bytes → List ℕ
  | _, [] => []
  | base, bytes :: emitted => base :: offsetsFrom (base + bytes.length + 1) emitted

variable {write} {emitted : List Bytes} {base index : ℕ}

theorem length_offsetsFrom : (offsetsFrom base emitted).length = emitted.length := by
  induction emitted generalizing base with
  | nil => rfl
  | cons bytes emitted ih => rw [offsetsFrom, List.length_cons, ih, List.length_cons]

theorem le_of_mem_offsetsFrom {offset : ℕ} (h : offset ∈ offsetsFrom base emitted) :
    base ≤ offset := by
  induction emitted generalizing base with
  | nil => exact absurd h List.not_mem_nil
  | cons bytes emitted ih =>
    rcases List.mem_cons.mp h with rfl | h
    · exact le_rfl
    · have := ih h
      omega

/-- The offsets strictly increase. -/
theorem pairwise_offsetsFrom : (offsetsFrom base emitted).Pairwise (· < ·) := by
  induction emitted generalizing base with
  | nil => exact List.Pairwise.nil
  | cons bytes emitted ih =>
    refine List.Pairwise.cons ?_ ih
    intro offset hoffset
    have := le_of_mem_offsetsFrom hoffset
    omega

theorem objectsOf_cons (bytes : Bytes) (emitted : List Bytes) :
    objectsOf (bytes :: emitted) = bytes ++ 0x0a :: objectsOf emitted := by
  rw [objectsOf, List.flatMap_cons, ← objectsOf, List.append_assoc, List.singleton_append]

/-- An offset is the number of bytes in front of the member. -/
theorem getElem?_offsetsFrom (i : ℕ) (h : i < emitted.length) :
    (offsetsFrom base emitted)[i]? = some (base + (objectsOf (emitted.take i)).length) := by
  induction emitted generalizing base i with
  | nil => exact absurd h (Nat.not_lt_zero i)
  | cons bytes emitted ih =>
    cases i with
    | zero => rfl
    | succ i =>
      rw [offsetsFrom, List.getElem?_cons_succ, ih i (Nat.lt_of_succ_lt_succ h),
        List.take_succ_cons, objectsOf_cons, List.length_append, List.length_cons]
      congr 1
      omega

theorem lt_of_mem_offsetsFrom {offset : ℕ} (h : offset ∈ offsetsFrom base emitted) :
    offset < base + (objectsOf emitted).length := by
  induction emitted generalizing base with
  | nil => exact absurd h List.not_mem_nil
  | cons bytes emitted ih =>
    rw [objectsOf_cons, List.length_append, List.length_cons]
    rcases List.mem_cons.mp h with rfl | h
    · omega
    · have := ih h
      omega

/-! ## The two copies agree -/

/-- The sink over a vector that has been written to from its front. -/
def retained (vec : Bytes) : OutputSink := ⟨vec, true, vec.length⟩

theorem length_le_of_vecExtend {vec vec' bytes : Bytes}
    (h : vecExtend (ε := ε) vec bytes = .ok vec') : vec'.length ≤ maxVecLength := by
  rw [vecExtend] at h
  split at h
  next hfits =>
    cases h
    rwa [List.length_append]
  next => cases h

theorem writeBytes_retained {vec : Bytes} (hvec : vec.length ≤ maxVecLength) (bytes : Bytes) :
    (retained vec).writeBytes (ε := ε) bytes = (vecExtend vec bytes).map retained := by
  cases bytes with
  | nil =>
    rw [vecExtend, List.length_nil, Nat.add_zero, if_pos hvec, List.append_nil]
    rfl
  | cons b bytes =>
    change (vecExtend vec (b :: bytes) >>= fun target =>
      if vec.length + (b :: bytes).length < 2 ^ 64 then
        Except.ok (OutputSink.mk target true (vec.length + (b :: bytes).length))
      else .error (.unsupported (ascii "writer output position exceeds u64 range"))) = _
    by_cases hfits : vec.length + (b :: bytes).length ≤ maxVecLength
    · have hextend : vecExtend (ε := ε) vec (b :: bytes) = .ok (vec ++ b :: bytes) := if_pos hfits
      have hposition : vec.length + (b :: bytes).length < 2 ^ 64 := by
        rw [maxVecLength] at hfits
        omega
      rw [hextend, ok_bind, if_pos hposition, Except.map, retained, List.length_append]
    · have hextend : vecExtend (ε := ε) vec (b :: bytes) = .error .capacityOverflow :=
        if_neg hfits
      rw [hextend]
      rfl

theorem foldlM_writeBytes_retained (chunks : List Bytes) {vec : Bytes}
    (hvec : vec.length ≤ maxVecLength) :
    chunks.foldlM (OutputSink.writeBytes (ε := ε)) (retained vec) =
      (chunks.foldlM vecExtend vec).map retained := by
  induction chunks generalizing vec with
  | nil => rfl
  | cons bytes chunks ih =>
    rw [List.foldlM_cons, List.foldlM_cons, writeBytes_retained hvec]
    cases hextend : vecExtend (ε := ε) vec bytes with
    | error e => rfl
    | ok vec' => exact ih (length_le_of_vecExtend hextend)

theorem length_le_of_foldlM {chunks : List Bytes} {vec vec' : Bytes}
    (hvec : vec.length ≤ maxVecLength) (h : chunks.foldlM (vecExtend (ε := ε)) vec = .ok vec') :
    vec'.length ≤ maxVecLength := by
  induction chunks generalizing vec with
  | nil =>
    cases h
    exact hvec
  | cons bytes chunks ih =>
    rw [List.foldlM_cons] at h
    obtain ⟨next, hnext, h⟩ := bind_eq_ok.mp h
    exact ih (length_le_of_vecExtend hnext) h

/-- The loop with a sink has the vector of the other loop as its target. -/
theorem emitMembersWithSink_retained (write : MemberWriter σ ε τ)
    (members : List (MemberRef × τ)) (index : ℕ) (objectsSection : Bytes) (offsets : List ℕ) (s : σ)
    (hsection : objectsSection.length ≤ maxVecLength) :
    emitMembersWithSink write index members (retained objectsSection) offsets s =
      ((emitMembers write index members objectsSection offsets s).1.map fun result =>
          (retained result.1, result.2),
        (emitMembers write index members objectsSection offsets s).2) := by
  induction members generalizing index objectsSection offsets s with
  | nil => rfl
  | cons member members ih =>
    rw [emitMembersWithSink, emitMembers]
    split
    next =>
      generalize write s index member.1 member.2 = written
      obtain ⟨⟨chunks, result⟩, s'⟩ := written
      simp only [foldlM_writeBytes_retained chunks hsection]
      cases hchunks : chunks.foldlM (vecExtend (ε := ε)) objectsSection with
      | error e => rfl
      | ok vec =>
        have hvec := length_le_of_foldlM hsection hchunks
        cases result with
        | error e => rfl
        | ok u =>
          simp only [Except.map, writeBytes_retained hvec]
          cases hnewline : vecExtend (ε := ε) vec [0x0a] with
          | error e => rfl
          | ok next => exact ih (index + 1) next _ s' (length_le_of_vecExtend hnewline)
    next => rfl

/-- The retained pass of the sink is the pass of the vector. -/
theorem emitWithSink_eq (members : List (MemberRef × τ)) (qdf : Bool) (s : σ) :
    emitObjstmBodyFromMembersWithSink write members qdf true s =
      emitObjstmBodyFromMembers write members qdf s := by
  rw [emitObjstmBodyFromMembersWithSink, emitObjstmBodyFromMembers]
  have hloop := emitMembersWithSink_retained write members 0 [] [] s (Nat.zero_le _)
  rw [retained, List.length_nil] at hloop
  rw [hloop]
  generalize emitMembers write 0 members [] [] s = result
  obtain ⟨result, s'⟩ := result
  cases result with
  | error e => rfl
  | ok result => rfl

/-! ## The members of a body -/

theorem foldlM_vecExtend (chunks : List Bytes) {vec : Bytes} (hvec : vec.length ≤ maxVecLength) :
    chunks.foldlM (vecExtend (ε := ε)) vec =
      if vec.length + chunks.flatten.length ≤ maxVecLength then .ok (vec ++ chunks.flatten)
      else .error .capacityOverflow := by
  induction chunks generalizing vec with
  | nil =>
    rw [List.flatten_nil, List.length_nil, Nat.add_zero, if_pos hvec, List.append_nil]
    rfl
  | cons bytes chunks ih =>
    rw [List.foldlM_cons, List.flatten_cons, List.length_append, vecExtend]
    by_cases hfits : vec.length + bytes.length ≤ maxVecLength
    · have hnext : (vec ++ bytes).length ≤ maxVecLength := by rwa [List.length_append]
      rw [if_pos hfits, ok_bind, ih hnext, List.length_append, Nat.add_assoc, List.append_assoc]
    · rw [if_neg hfits, if_neg (by omega)]
      rfl

/-- A run of the loop with a writer that emits `emitted`. -/
theorem emitMembers_spec {members : List (MemberRef × τ)} {objectsSection : Bytes}
    (offsets : List ℕ) {s s' : σ} (hindex : index + members.length ≤ 2 ^ 32)
    (hsection : objectsSection.length ≤ maxVecLength)
    (hrun : memberBytes write index members s = (.ok emitted, s')) :
    (objectsSection.length + (objectsOf emitted).length ≤ maxVecLength →
      emitMembers write index members objectsSection offsets s =
        (.ok (objectsSection ++ objectsOf emitted,
          offsets ++ offsetsFrom objectsSection.length emitted), s')) ∧
    (maxVecLength < objectsSection.length + (objectsOf emitted).length →
      (emitMembers write index members objectsSection offsets s).1 = .error .capacityOverflow) := by
  induction members generalizing index objectsSection offsets s emitted with
  | nil =>
    cases hrun
    constructor
    · intro _
      rw [emitMembers, objectsOf, List.flatMap_nil, List.append_nil, offsetsFrom, List.append_nil]
    · intro hlong
      simp only [objectsOf, List.flatMap_nil, List.length_nil] at hlong
      omega
  | cons member members ih =>
    rw [List.length_cons] at hindex
    rw [memberBytes] at hrun
    rw [emitMembers, if_pos (by omega)]
    generalize write s index member.1 member.2 = written at hrun ⊢
    obtain ⟨⟨chunks, result⟩, s₁⟩ := written
    cases result with
    | error e => cases hrun
    | ok u =>
      simp only at hrun
      generalize hrest : memberBytes write (index + 1) members s₁ = rest at hrun
      obtain ⟨rest, s₂⟩ := rest
      cases rest with
      | error e => cases hrun
      | ok rest =>
        cases hrun
        rw [objectsOf_cons, List.length_append, List.length_cons, offsetsFrom]
        simp only [foldlM_vecExtend chunks hsection]
        by_cases hchunks : objectsSection.length + chunks.flatten.length ≤ maxVecLength
        · rw [if_pos hchunks]
          simp only [vecExtend, List.length_append, List.length_singleton]
          by_cases hnewline : objectsSection.length + chunks.flatten.length + 1 ≤ maxVecLength
          · rw [if_pos hnewline]
            have hnext : (objectsSection ++ chunks.flatten ++ [0x0a]).length ≤ maxVecLength := by
              rwa [List.length_append, List.length_append, List.length_singleton]
            obtain ⟨hfits, hlong⟩ := ih (offsets ++ [objectsSection.length]) (by omega) hnext hrest
            rw [List.length_append, List.length_append, List.length_singleton] at hfits hlong
            constructor
            · intro h
              refine (hfits (by omega)).trans ?_
              simp only [List.append_assoc, List.cons_append, List.nil_append]
            · intro h
              exact hlong (by omega)
          · rw [if_neg hnewline]
            constructor
            · intro h
              omega
            · intro _
              rfl
        · rw [if_neg hchunks]
          constructor
          · intro h
            omega
          · intro _
            rfl

theorem length_of_memberBytes {members : List (MemberRef × τ)} {s s' : σ}
    (hrun : memberBytes write index members s = (.ok emitted, s')) :
    emitted.length = members.length := by
  induction members generalizing index s emitted with
  | nil =>
    cases hrun
    rfl
  | cons member members ih =>
    rw [memberBytes] at hrun
    generalize write s index member.1 member.2 = written at hrun
    obtain ⟨⟨chunks, result⟩, s₁⟩ := written
    cases result with
    | error e => cases hrun
    | ok u =>
      simp only at hrun
      generalize hrest : memberBytes write (index + 1) members s₁ = rest at hrun
      obtain ⟨rest, s₂⟩ := rest
      cases rest with
      | error e => cases hrun
      | ok rest =>
        cases hrun
        rw [List.length_cons, List.length_cons, ih hrest]

/-! ## Duplicates -/

theorem duplicateMember_eq_none {seen : List ℕ} {members : List (MemberRef × τ)} :
    duplicateMember seen members = none ↔
      (members.map fun member => member.1.number).Nodup ∧
        ∀ member ∈ members, member.1.number ∉ seen := by
  induction members generalizing seen with
  | nil => simp [duplicateMember]
  | cons member members ih =>
    rw [duplicateMember]
    split
    next hmem =>
      constructor
      · intro h
        cases h
      · intro h
        exact absurd hmem (h.2 member List.mem_cons_self)
    next hmem =>
      rw [ih, List.map_cons, List.nodup_cons, List.forall_mem_cons]
      constructor
      · rintro ⟨hnodup, hseen⟩
        refine ⟨⟨?_, hnodup⟩, hmem, ?_⟩
        · intro h
          obtain ⟨other, hother, hnumber⟩ := List.mem_map.mp h
          exact hseen other hother (hnumber ▸ List.mem_cons_self)
        · intro other hother h
          exact hseen other hother (List.mem_cons_of_mem _ h)
      · rintro ⟨⟨hhead, hnodup⟩, _, hseen⟩
        refine ⟨hnodup, ?_⟩
        intro other hother h
        rcases List.mem_cons.mp h with h | h
        · exact hhead (h ▸ List.mem_map_of_mem hother)
        · exact hseen other hother h

/-- There are no more numbers than a `u32` holds. -/
theorem length_le_of_nodup {members : List (MemberRef × τ)}
    (h : (members.map fun member => member.1.number).Nodup) : members.length ≤ 2 ^ 32 := by
  have hsubset : (members.map fun member => member.1.number).toFinset ⊆ Finset.range (2 ^ 32) := by
    intro number hnumber
    obtain ⟨member, _, rfl⟩ := List.mem_map.mp (List.mem_toFinset.mp hnumber)
    exact Finset.mem_range.mpr member.1.number_lt
  have hcard := Finset.card_le_card hsubset
  rwa [List.toFinset_card_of_nodup h, List.length_map, Finset.card_range] at hcard

/-! ## The table -/

/-- The separator of the pairs. -/
def pairSeparator (qdf : Bool) : UInt8 := if qdf then 0x0a else 0x20

theorem isWs_pairSeparator (qdf : Bool) : isWs (pairSeparator qdf) = true := by
  cases qdf <;> rfl

theorem pairTableLoop_succ (qdf : Bool) (i : ℕ) (pairs : List (ℕ × ℕ)) (table : Bytes) :
    pairTableLoop qdf (i + 1) pairs table =
      table ++ pairs.flatMap fun pair => pairSeparator qdf :: Tokenizer.headerPair pair := by
  induction pairs generalizing i table with
  | nil => rw [pairTableLoop, List.flatMap_nil, List.append_nil]
  | cons pair pairs ih =>
    rw [pairTableLoop, ih, if_pos (Nat.succ_pos i), List.flatMap_cons, ← pairSeparator]
    simp only [List.append_assoc, List.cons_append, List.nil_append]

theorem pairTable_cons (qdf : Bool) (pair : ℕ × ℕ) (pairs : List (ℕ × ℕ)) :
    pairTable qdf (pair :: pairs) = Tokenizer.headerPair pair ++
      (pairs.flatMap fun pair => pairSeparator qdf :: Tokenizer.headerPair pair) ++ [0x0a] := by
  rw [pairTable, pairTableLoop, pairTableLoop_succ, if_neg (Nat.lt_irrefl 0), List.nil_append]

/-- The pairs of a table are read back; the reader stops in front of the last byte of it. -/
theorem readHeaderPairs_pairTable (qdf : Bool) {pairs : List (ℕ × ℕ)} (hne : pairs ≠ [])
    (hpairs : ∀ pair ∈ pairs, pair.1 < 2 ^ 63 ∧ pair.2 < 2 ^ 63) (rest : Bytes) :
    ∃ t, Tokenizer.readHeaderPairs pairs.length { input := pairTable qdf pairs ++ rest } =
        (.ok (pairs.map fun pair => ((pair.1 : ℤ), (pair.2 : ℤ))), t) ∧
      t.pos < (pairTable qdf pairs).length := by
  cases pairs with
  | nil => exact absurd rfl hne
  | cons pair pairs =>
    have hstart : Tokenizer.StandsAt { input := pairTable qdf (pair :: pairs) ++ rest }
        ([] ++ Tokenizer.headerPair pair ++
          ((pairs.flatMap fun pair => pairSeparator qdf :: Tokenizer.headerPair pair) ++
            0x0a :: rest)) := by
      refine ⟨LexState.noConfusion, rfl, Nat.zero_le _, ?_⟩
      simp only [List.drop_zero, pairTable_cons, List.append_assoc, List.singleton_append,
        List.nil_append]
    have hend : ∀ d ∈ ((0x0a : UInt8) :: rest).head?, isTokenDelimiter d = true := by
      intro d hd
      obtain rfl : 0x0a = d := by simpa using hd
      rfl
    have hfollows : ∀ d ∈ ((pairs.flatMap fun pair =>
        pairSeparator qdf :: Tokenizer.headerPair pair) ++ 0x0a :: rest).head?,
        isTokenDelimiter d = true := by
      cases pairs with
      | nil => exact hend
      | cons next pairs =>
        intro d hd
        obtain rfl : pairSeparator qdf = d := by simpa using hd
        rw [isTokenDelimiter, isWs_pairSeparator, Bool.true_or]
    have hfits := hpairs pair List.mem_cons_self
    obtain ⟨t₁, hread₁, hstands₁, hinput₁⟩ := hstart.nextObjectStreamHeaderPair
      (fun b hb => absurd hb List.not_mem_nil) hfits.1 hfits.2 hfollows
    obtain ⟨t₂, hread₂, hstands₂, hinput₂⟩ := hstands₁.readHeaderPairs (isWs_pairSeparator qdf)
      (fun p hp => hpairs p (List.mem_cons_of_mem pair hp)) hend
    refine ⟨t₂, ?_, ?_⟩
    · simp only [List.length_cons, Tokenizer.readHeaderPairs, hread₁, hread₂, List.map_cons]
    · have hpos := hstands₂.pos_add
      rw [hinput₂, hinput₁, List.length_append, List.length_cons] at hpos
      omega

/-- The shift in place puts the table in front of the objects. -/
theorem assembleBody_eq {members : List (MemberRef × τ)} {qdf : Bool} {objectsSection : Bytes}
    {offsets : List ℕ} :
    assembleBody (ε := ε) members qdf objectsSection offsets =
      if objectsSection.length + (pairTable qdf
          ((members.zip offsets).map fun entry => (entry.1.1.number, entry.2))).length ≤
          maxVecLength then
        .ok ⟨pairTable qdf ((members.zip offsets).map fun entry => (entry.1.1.number, entry.2)) ++
            objectsSection,
          (pairTable qdf
            ((members.zip offsets).map fun entry => (entry.1.1.number, entry.2))).length,
          members.length⟩
      else .error .capacityOverflow := by
  rw [assembleBody]
  generalize pairTable qdf ((members.zip offsets).map fun entry => (entry.1.1.number, entry.2)) =
    table
  have hresize : resize objectsSection (objectsSection.length + table.length) =
      objectsSection ++ List.replicate table.length 0 := by
    rw [resize, Nat.add_sub_cancel_left]
  have hlength : (resize objectsSection (objectsSection.length + table.length)).length =
      objectsSection.length + table.length := by
    rw [hresize, List.length_append, List.length_replicate]
  have hshift : copyWithin (resize objectsSection (objectsSection.length + table.length))
      objectsSection.length table.length =
      (resize objectsSection (objectsSection.length + table.length)).take table.length ++
        objectsSection := by
    rw [copyWithin, List.drop_of_length_le (by rw [hlength]; omega), List.append_nil]
    rw [hresize, List.take_left]
  have hfront : copyToFront (copyWithin
      (resize objectsSection (objectsSection.length + table.length)) objectsSection.length
        table.length) table = table ++ objectsSection := by
    have htake : ((resize objectsSection (objectsSection.length + table.length)).take
        table.length).length = table.length := by
      rw [List.length_take, hlength]
      omega
    rw [hshift, copyToFront, List.drop_left' htake]
  simp only [hfront]

/-! ## The index -/

/-- The table of a body leads to the bytes that were emitted for each member. -/
structure Indexes (members : List (MemberRef × τ)) (emitted : List Bytes) (body : ObjStmBody)
    (offsets : List ℕ) : Prop where
  count : body.nMembers = members.length
  pairs : ∃ t, Tokenizer.readHeaderPairs body.nMembers { input := body.bytes } =
      (.ok ((members.map fun member => (member.1.number : ℤ)).zip
        (offsets.map fun offset : ℕ => (offset : ℤ))), t) ∧ t.pos < body.firstOffset
  ascending : offsets.Pairwise (· < ·)
  length_eq : offsets.length = members.length
  member : ∀ i offset bytes, offsets[i]? = some offset → emitted[i]? = some bytes →
    body.bytes.drop (body.firstOffset + offset) = bytes ++ 0x0a :: objectsOf (emitted.drop (i + 1))
  objects : body.bytes.drop body.firstOffset = objectsOf emitted

theorem objectsOf_append (l l' : List Bytes) : objectsOf (l ++ l') = objectsOf l ++ objectsOf l' :=
  List.flatMap_append

theorem drop_objectsOf {i : ℕ} {bytes : Bytes} (h : emitted[i]? = some bytes) :
    (objectsOf emitted).drop (objectsOf (emitted.take i)).length =
      bytes ++ 0x0a :: objectsOf (emitted.drop (i + 1)) := by
  obtain ⟨hlt, hget⟩ := List.getElem?_eq_some_iff.mp h
  have hsplit : objectsOf emitted = objectsOf (emitted.take i) ++
      (bytes ++ 0x0a :: objectsOf (emitted.drop (i + 1))) := by
    rw [← objectsOf_cons, ← hget, List.getElem_cons_drop, ← objectsOf_append, List.take_append_drop]
  rw [hsplit, List.drop_left]

/-- The table in front of the objects is an index of them. -/
theorem indexes_assembled {members : List (MemberRef × τ)} (hne : members ≠ [])
    (hlength : emitted.length = members.length) (qdf : Bool)
    (hfits : (objectsOf emitted).length ≤ maxVecLength) :
    Indexes members emitted
      ⟨pairTable qdf ((members.zip (offsetsFrom 0 emitted)).map fun entry =>
          (entry.1.1.number, entry.2)) ++ objectsOf emitted,
        (pairTable qdf ((members.zip (offsetsFrom 0 emitted)).map fun entry =>
          (entry.1.1.number, entry.2))).length,
        members.length⟩ (offsetsFrom 0 emitted) := by
  have hoffsets : (offsetsFrom 0 emitted).length = members.length := by
    rw [length_offsetsFrom, hlength]
  set pairs := (members.zip (offsetsFrom 0 emitted)).map fun entry =>
    (entry.1.1.number, entry.2) with hpairs
  have hcount : pairs.length = members.length := by
    rw [hpairs, List.length_map, List.length_zip, hoffsets, Nat.min_self]
  have hsmall : ∀ pair ∈ pairs, pair.1 < 2 ^ 63 ∧ pair.2 < 2 ^ 63 := by
    intro pair hpair
    obtain ⟨entry, hentry, rfl⟩ := List.mem_map.mp hpair
    have hnumber := entry.1.1.number_lt
    have hoffset := lt_of_mem_offsetsFrom (List.of_mem_zip hentry).2
    rw [maxVecLength] at hfits
    exact ⟨by omega, by omega⟩
  have hsome : pairs ≠ [] := by
    intro hnil
    rw [hnil] at hcount
    exact hne (List.length_eq_zero_iff.mp hcount.symm)
  obtain ⟨t, hread, hpos⟩ := readHeaderPairs_pairTable qdf hsome hsmall (objectsOf emitted)
  refine ⟨rfl, ⟨t, ?_, hpos⟩, pairwise_offsetsFrom, hoffsets, ?_, List.drop_left⟩
  · rw [hcount] at hread
    rw [hread, hpairs, List.zip_map, List.map_map]
    rfl
  · intro i offset bytes hoffset hbytes
    obtain ⟨hlt, _⟩ := List.getElem?_eq_some_iff.mp hbytes
    rw [getElem?_offsetsFrom i hlt, Option.some.injEq, Nat.zero_add] at hoffset
    subst hoffset
    rw [← List.drop_drop, List.drop_left, drop_objectsOf hbytes]

/-- Both copies of the emission have the same outcome. With distinct numbers, a writer that
emits `emitted` gets a body whose table indexes it, unless the body outgrows a vector; with a
repeated number nothing is written. -/
theorem emitObjstmBodyFromMembers_indexes (write : MemberWriter σ ε τ)
    (members : List (MemberRef × τ)) (qdf : Bool) (s : σ) (hne : members ≠ []) :
    emitObjstmBodyFromMembersWithSink write members qdf true s =
        emitObjstmBodyFromMembers write members qdf s ∧
      ((members.map fun member => member.1.number).Nodup →
        ∀ emitted s', memberBytes write 0 members s = (.ok emitted, s') →
          (∃ body, emitObjstmBodyFromMembers write members qdf s = (.ok body, s') ∧
            Indexes members emitted body (offsetsFrom 0 emitted)) ∨
          (maxVecLength < (objectsOf emitted).length + (pairTable qdf ((members.zip
              (offsetsFrom 0 emitted)).map fun entry => (entry.1.1.number, entry.2))).length ∧
            (emitObjstmBodyFromMembers write members qdf s).1 = .error .capacityOverflow)) ∧
      (¬(members.map fun member => member.1.number).Nodup →
        ∃ number, ∀ retainBody,
          emitObjstmBodyFromMembersWithSink write members qdf retainBody s =
              (.error (.unsupported (duplicateMemberMessage number)), s) ∧
            emitObjstmBodyFromMembers write members qdf s =
              (.error (.unsupported (duplicateMemberMessage number)), s)) := by
  have hempty : members.isEmpty = false := by
    rw [← Bool.not_eq_true, List.isEmpty_iff]
    exact hne
  refine ⟨emitWithSink_eq members qdf s, ?_, ?_⟩
  · intro hnodup emitted s' hrun
    have hnone : duplicateMember [] members = none :=
      duplicateMember_eq_none.mpr ⟨hnodup, fun _ _ => List.not_mem_nil⟩
    have hindex : 0 + members.length ≤ 2 ^ 32 := by
      rw [Nat.zero_add]
      exact length_le_of_nodup hnodup
    have hstart : ([] : Bytes).length ≤ maxVecLength := Nat.zero_le _
    obtain ⟨hfits, hlong⟩ := emitMembers_spec [] hindex hstart hrun
    rw [List.length_nil, Nat.zero_add] at hfits hlong
    rw [emitObjstmBodyFromMembers, hempty, if_neg Bool.false_ne_true, hnone]
    by_cases hobjects : (objectsOf emitted).length ≤ maxVecLength
    · simp only [hfits hobjects, List.nil_append, assembleBody_eq]
      split
      next =>
        exact .inl ⟨_, rfl, indexes_assembled hne (length_of_memberBytes hrun) qdf hobjects⟩
      next hbody => exact .inr ⟨not_le.mp hbody, rfl⟩
    · have hstop := hlong (not_le.mp hobjects)
      generalize emitMembers write 0 members [] [] s = result at hstop
      obtain ⟨result, s₁⟩ := result
      simp only at hstop
      subst hstop
      exact .inr ⟨by omega, rfl⟩
  · intro hdup
    cases hsome : duplicateMember [] members with
    | none => exact absurd (duplicateMember_eq_none.mp hsome).1 hdup
    | some number =>
      refine ⟨number, fun retainBody => ?_⟩
      rw [emitObjstmBodyFromMembersWithSink, emitObjstmBodyFromMembers, hempty,
        if_neg Bool.false_ne_true, if_neg Bool.false_ne_true, hsome]
      exact ⟨rfl, rfl⟩

/-- Two members, 12 and 7, with the bodies `<<>>` and `[1]`. -/
def twoMembers : List (MemberRef × Bytes) :=
  [(⟨⟨12, 0⟩, by decide⟩, ascii "<<>>"), (⟨⟨7, 0⟩, by decide⟩, ascii "[1]")]

/-- The writer that emits a member as it is. -/
def plainWriter : MemberWriter Unit Empty Bytes := fun s _ _ bytes => (⟨[bytes], .ok ()⟩, s)

theorem emitObjstmBodyFromMembers_indexes_twoMembers :
    ∃ body, emitObjstmBodyFromMembers plainWriter twoMembers false () = (.ok body, ()) ∧
      Indexes twoMembers [ascii "<<>>", ascii "[1]"] body [0, 5] := by
  have hspec := emitObjstmBodyFromMembers_indexes plainWriter twoMembers false ()
    (List.cons_ne_nil _ _)
  rcases hspec.2.1 (by decide) [ascii "<<>>", ascii "[1]"] () rfl with hbody | ⟨hlong, _⟩
  · exact hbody
  · exact absurd hlong (by decide)

/-! ## What was emitted -/

section Emitted

variable {members : List (MemberRef × τ)} {s s' : σ}

theorem memberBytes_of_emitMembersWithSink {sink : OutputSink} {offsets : List ℕ}
    {emission : OutputSink × List ℕ}
    (h : emitMembersWithSink write index members sink offsets s = (.ok emission, s')) :
    ∃ emitted, memberBytes write index members s = (.ok emitted, s') := by
  induction members generalizing index sink offsets s with
  | nil =>
    cases h
    exact ⟨[], rfl⟩
  | cons member members ih =>
    rw [emitMembersWithSink] at h
    rw [memberBytes]
    rcases hwrite : write s index member.1 member.2 with ⟨⟨chunks, result⟩, s₁⟩
    rw [hwrite] at h
    dsimp only at h ⊢
    split_ifs at h
    · split at h
      · cases h
      · cases result with
        | error e => cases h
        | ok done =>
          cases done
          dsimp only at h ⊢
          split at h
          · cases h
          · obtain ⟨emitted, hrest⟩ := ih h
            exact ⟨_, by rw [hrest]⟩
    · cases h

/-- A pass that succeeds has asked the writer for every member. -/
theorem memberBytes_of_emitWithSink {qdf retainBody : Bool} {body : ObjStmBody} (hne : members ≠ [])
    (h : emitObjstmBodyFromMembersWithSink write members qdf retainBody s = (.ok body, s')) :
    (members.map fun member => member.1.number).Nodup ∧
      ∃ emitted, memberBytes write 0 members s = (.ok emitted, s') := by
  rw [emitObjstmBodyFromMembersWithSink, if_neg (by simpa using hne)] at h
  split at h
  · cases h
  next hnone =>
    refine ⟨(duplicateMember_eq_none.mp hnone).1, ?_⟩
    split at h
    · cases h
    next hemit =>
      obtain ⟨emitted, hrun⟩ := memberBytes_of_emitMembersWithSink hemit
      split_ifs at h <;> exact ⟨emitted, (Prod.mk.inj h).2 ▸ hrun⟩

/-- A body that was emitted has an index of what was written for its members. -/
theorem indexes_of_emit {qdf : Bool} {body : ObjStmBody} (hne : members ≠ [])
    (h : emitObjstmBodyFromMembers write members qdf s = (.ok body, s')) :
    (members.map fun member => member.1.number).Nodup ∧ ∃ emitted,
      memberBytes write 0 members s = (.ok emitted, s') ∧
        Indexes members emitted body (offsetsFrom 0 emitted) := by
  obtain ⟨hnodup, emitted, hrun⟩ :=
    memberBytes_of_emitWithSink hne ((emitWithSink_eq members qdf s).trans h)
  have hstart : ([] : Bytes).length ≤ maxVecLength := Nat.zero_le _
  obtain ⟨hfits, hlong⟩ := emitMembers_spec [] ((Nat.zero_add _).trans_le
    (length_le_of_nodup hnodup)) hstart hrun
  rw [List.length_nil, Nat.zero_add] at hfits hlong
  have hnone : duplicateMember [] members = none :=
    duplicateMember_eq_none.mpr ⟨hnodup, fun _ _ => List.not_mem_nil⟩
  rw [emitObjstmBodyFromMembers, if_neg (by simpa using hne), hnone] at h
  by_cases hobjects : (objectsOf emitted).length ≤ maxVecLength
  · simp only [hfits hobjects, List.nil_append, assembleBody_eq] at h
    split_ifs at h
    · cases h
      exact ⟨hnodup, emitted, hrun, indexes_assembled hne (length_of_memberBytes hrun) qdf hobjects⟩
    · cases h
  · have hstop := hlong (not_le.mp hobjects)
    generalize emitMembers write 0 members [] [] s = result at hstop h
    obtain ⟨result, s₁⟩ := result
    obtain rfl : result = .error .capacityOverflow := hstop
    cases h

/-! ## The index of a QDF file -/

variable {original : τ → Option ObjectRef}

/-- The lines in front of the members. -/
def objectStreamMarkers (original : τ → Option ObjectRef) (index : ℕ)
    (members : List (MemberRef × τ)) : List Bytes :=
  (members.zipIdx index).map fun entry => objectStreamMarker original entry.2 entry.1

/-- The lines stand in front of what is written, and the first pass records where. -/
theorem memberBytes_qdfBodyWriter {m m' : QdfMarkers}
    (h : memberBytes (qdfBodyWriter write original) index members (m, s) = (.ok emitted, m', s')) :
    ∃ texts, memberBytes write index members s = (.ok texts, s') ∧
      emitted = List.zipWith (· ++ ·) (objectStreamMarkers original index members) texts ∧
      (m.firstPass = true →
        m'.markerStarts = m.markerStarts ++ offsetsFrom m.position emitted ∧
          m'.markerLengths = m.markerLengths ++
            (objectStreamMarkers original index members).map List.length) := by
  induction members generalizing index m s emitted with
  | nil =>
    cases h
    exact ⟨[], rfl, rfl, fun _ => ⟨(List.append_nil _).symm, (List.append_nil _).symm⟩⟩
  | cons member members ih =>
    rw [memberBytes, qdfBodyWriter] at h
    rw [memberBytes]
    rcases hwrite : write s index member.1 member.2 with ⟨⟨chunks, result⟩, s₁⟩
    rw [hwrite] at h
    cases result with
    | error e => cases h
    | ok done =>
      dsimp only at h ⊢
      split at h
      · cases h
      next hrest =>
        cases h
        obtain ⟨texts, htexts, rfl, hnoted⟩ := ih hrest
        refine ⟨_, by rw [htexts], rfl, fun hfirst => ?_⟩
        rw [if_pos hfirst] at hnoted
        obtain ⟨hstarts, hlengths⟩ := hnoted hfirst
        rw [hstarts, hlengths, offsetsFrom, List.flatten_cons, List.length_append,
          ← Nat.add_assoc, List.append_assoc, List.append_assoc]
        exact ⟨rfl, rfl⟩

/-- What the reader is told of rows that begin with a line each: their offsets strictly increase and
lead from the end of a line to its text, counted from behind `first` bytes. -/
structure LeadsBehind (first base : ℕ) (lines texts rows : List Bytes) (offsets : List ℕ) : Prop where
  count : offsets.length = lines.length
  ascending : offsets.Pairwise (· < ·)
  bounds : ∀ offset ∈ offsets,
    base ≤ first + offset ∧ first + offset ≤ base + (objectsOf rows).length
  behind : ∀ (i : ℕ) line text, lines[i]? = some line → texts[i]? = some text →
    ∃ offset front behind, offsets[i]? = some offset ∧
      objectsOf rows = front ++ line ++ (text ++ 0x0a :: behind) ∧
        base + (front ++ line).length = first + offset

theorem leadsBehind {lines texts : List Bytes} {first : ℕ}
    (hlength : texts.length = lines.length) (hfirst : first ≤ base + (lines.headD []).length) :
    LeadsBehind first base lines texts (List.zipWith (· ++ ·) lines texts)
      (List.zipWith (fun start length => start + length - first)
        (offsetsFrom base (List.zipWith (· ++ ·) lines texts)) (lines.map List.length)) := by
  induction lines generalizing texts base with
  | nil => exact ⟨rfl, .nil, nofun, nofun⟩
  | cons line lines ih =>
    cases texts with
    | nil => cases hlength
    | cons text texts =>
      have hrow : (line ++ text).length = line.length + text.length := List.length_append
      rw [List.headD_cons] at hfirst
      obtain ⟨hcount, hascending, hbounds, hbehind⟩ := @ih (base + (line ++ text).length + 1)
        texts (Nat.succ.inj hlength) (by omega)
      constructor
      · exact congrArg Nat.succ hcount
      · refine .cons (fun offset hoffset => ?_) hascending
        have hbound := hbounds offset hoffset
        dsimp only
        omega
      · rw [List.zipWith_cons_cons, objectsOf_cons, List.length_append, List.length_cons]
        refine List.forall_mem_cons.mpr ⟨by dsimp only; omega, fun offset hoffset => ?_⟩
        have hbound := hbounds offset hoffset
        omega
      · intro i line' text' hline htext
        rw [List.zipWith_cons_cons, objectsOf_cons]
        cases i with
        | zero =>
          cases hline
          cases htext
          exact ⟨base + line.length - first, [], objectsOf (List.zipWith (· ++ ·) lines texts), rfl,
            by simp, by rw [List.nil_append]; omega⟩
        | succ i =>
          obtain ⟨offset, front, behind, hoffset, hrest, hposition⟩ := hbehind i line' text' hline htext
          refine ⟨offset, line ++ text ++ 0x0a :: front, behind, hoffset, by simp [hrest], ?_⟩
          simp only [List.length_append, List.length_cons] at hposition ⊢
          omega

/-- A QDF object stream begins with the pairs of its members in their order, and `/First` with the
offset of a member leads behind the member's line. -/
theorem emitLiveQdfObjectStream_indexes (write : MemberWriter σ ε τ)
    (original : τ → Option ObjectRef) (members : List (MemberRef × τ)) (s : σ) (body : ObjStmBody)
    (first : ℕ) (hne : members ≠ [])
    (hsame : ∀ texts t, memberBytes write 0 members s = (.ok texts, t) →
      (memberBytes write 0 members t).1 = .ok texts)
    (h : emitLiveQdfObjectStream write original members s = .ok (body, first)) :
    ∃ (texts : List Bytes) (offsets : List ℕ) (t : Tokenizer),
      (memberBytes write 0 members s).1 = .ok texts ∧
      Tokenizer.readHeaderPairs members.length { input := body.bytes } =
        (.ok ((members.zip offsets).map fun entry => ((entry.1.1.number : ℤ), (entry.2 : ℤ))), t) ∧
      offsets.Pairwise (· < ·) ∧
      ∀ i member, members[i]? = some member → ∃ text offset front behind,
        texts[i]? = some text ∧ offsets[i]? = some offset ∧
          body.bytes = front ++ objectStreamMarker original i member ++ (text ++ 0x0a :: behind) ∧
          (front ++ objectStreamMarker original i member).length = first + offset := by
  rw [emitLiveQdfObjectStream] at h
  split at h
  · cases h
  rename_i noted m s' hnoted
  split at h
  · cases h
  rename_i written s'' hwritten
  rw [emitWithSink_eq] at hwritten
  obtain ⟨-, rows', hrun'⟩ := memberBytes_of_emitWithSink hne hnoted
  obtain ⟨texts, htexts, rfl, hm⟩ := memberBytes_qdfBodyWriter hrun'
  obtain ⟨-, rows, hrun, hindex⟩ := indexes_of_emit hne hwritten
  obtain ⟨texts', htexts', rfl, -⟩ := memberBytes_qdfBodyWriter hrun
  have hagain := hsame _ _ htexts
  rw [htexts'] at hagain
  obtain rfl := Except.ok.inj hagain
  set lines := objectStreamMarkers original 0 members with hlines
  obtain ⟨hstarts, hlengths⟩ : m.markerStarts = offsetsFrom 0 (List.zipWith (· ++ ·) lines texts') ∧
    m.markerLengths = lines.map List.length := hm rfl
  have hlines' : lines.length = members.length := by simp [hlines, objectStreamMarkers]
  have hlength := length_of_memberBytes htexts
  have hleads : LeadsBehind ((lines.map List.length).headD 0) 0 lines texts' _ _ :=
    leadsBehind (hlength.trans hlines'.symm) (by cases lines <;> simp)
  rw [hindex.objects, hstarts, hlengths] at h
  set rows := List.zipWith (· ++ ·) lines texts'
  set offsets := List.zipWith _ (offsetsFrom 0 rows) _
  change Except.map _ (assembleBody members true (objectsOf rows) offsets) = _ at h
  rw [assembleBody_eq] at h
  split_ifs at h with hfits
  swap
  · cases h
  set pairs := (members.zip offsets).map fun entry => (entry.1.1.number, entry.2) with hpairs
  have hcount : pairs.length = members.length := by
    rw [hpairs, List.length_map, List.length_zip, hleads.count, hlines', Nat.min_self]
  have hsmall : ∀ pair ∈ pairs, pair.1 < 2 ^ 63 ∧ pair.2 < 2 ^ 63 := by
    intro pair hpair
    obtain ⟨entry, hentry, rfl⟩ := List.mem_map.mp hpair
    have hbound := hleads.bounds _ (List.of_mem_zip hentry).2
    have hnumber := entry.1.1.number_lt
    rw [maxVecLength] at hfits
    dsimp only
    omega
  obtain ⟨t, hread, -⟩ := readHeaderPairs_pairTable true
    (List.ne_nil_of_length_pos (hcount ▸ List.length_pos_iff.mpr hne)) hsmall (objectsOf rows)
  rw [hcount, hpairs, List.map_map] at hread
  cases h
  refine ⟨texts', offsets, t, by rw [htexts], hread, hleads.ascending, fun i member hi => ?_⟩
  have hlt : i < texts'.length := hlength ▸ (List.getElem?_eq_some_iff.mp hi).1
  have hline : lines[i]? = some (objectStreamMarker original i member) := by
    simp [hlines, objectStreamMarkers, hi]
  obtain ⟨offset, front, behind, hoffset, hrows, hposition⟩ :=
    hleads.behind i _ _ hline (List.getElem?_eq_getElem hlt)
  refine ⟨_, offset, pairTable true pairs ++ front, behind, List.getElem?_eq_getElem hlt, hoffset,
    by simp only [hrows, List.append_assoc], ?_⟩
  simp only [List.length_append] at hposition ⊢
  omega

/-- The two members, each behind a line of its own. -/
theorem emitLiveQdfObjectStream_indexes_twoMembers : ∃ (body : ObjStmBody) (first : ℕ)
    (offsets : List ℕ) (t : Tokenizer),
    emitLiveQdfObjectStream plainWriter (fun _ => none) twoMembers () = .ok (body, first) ∧
      Tokenizer.readHeaderPairs 2 { input := body.bytes } =
        (.ok ((twoMembers.zip offsets).map fun entry => (↑entry.1.1.number, ↑entry.2)), t) ∧
      offsets.Pairwise (· < ·) := by
  obtain ⟨texts, offsets, t, -, hread, hascending, -⟩ := emitLiveQdfObjectStream_indexes plainWriter
    (fun _ => none) twoMembers () _ _ (List.cons_ne_nil _ _) (fun _ _ h => by cases h; rfl) rfl
  exact ⟨_, _, offsets, t, rfl, hread, hascending⟩

end Emitted

end Flpdf
