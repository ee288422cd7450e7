import Flpdf.Bytes.Decimal
import Flpdf.Parser.Turns

/-!
# Reading values back

A value that is spelled out token by token is read back as that value, with no warning,
wherever it stands: behind integers, as an item, as an entry or on its own.
-/

namespace Flpdf

open Tokenizer

/-! ## Spelled values -/

/-- A value, or the items or the entries of one. -/
inductive Fragment where
  | value (value : ObjectValue)
  | items (items : List ObjectValue)
  | entries (entries : List (Bytes × ObjectValue))

/-- A spelling that is its own value. -/
def plain (raw : Bytes) (type : TokenType) : Spelled := ⟨raw, type, raw⟩

def boolText (value : Bool) : Bytes := if value then ascii "true" else ascii "false"

/-- A name and its escaped spelling. -/
def nameSpelled (n : Bytes) : Spelled := ⟨0x2f :: n.flatMap nameByte, .name, 0x2f :: n⟩

/-- The spellings of a fragment whose containers are nested at most `d` deep. -/
inductive Spells : ℕ → Fragment → List Spelled → Prop where
  | null {d : ℕ} : Spells d (.value .null) [plain (ascii "null") .null]
  | boolean {d : ℕ} (value : Bool) : Spells d (.value (.boolean value)) [plain (boolText value) .bool]
  | integer {d : ℕ} {value : ℤ} (hlower : -2 ^ 63 ≤ value) (hupper : value < 2 ^ 63) :
      Spells d (.value (.integer value)) [plain (intDecimal value) .integer]
  | real {d : ℕ} {encoded : Bytes} (h : Spelling encoded .real encoded) :
      Spells d (.value (.real encoded)) [plain encoded .real]
  | name {d : ℕ} {n : Bytes} (hn : 0 ∉ n) : Spells d (.value (.name n)) [nameSpelled n]
  | string {d : ℕ} {raw value : Bytes} (h : Spelling raw .string value) :
      Spells d (.value (.string value)) [⟨raw, .string, value⟩]
  | reference {d : ℕ} {number generation : ℤ} (hnumber : 1 ≤ number ∧ number < 2 ^ 31)
      (hgeneration : 0 ≤ generation ∧ generation < 65535) :
      Spells d (.value (.indirect ⟨number, generation⟩))
        [plain (intDecimal number) .integer, plain (intDecimal generation) .integer,
          plain (ascii "R") .word]
  | array {d : ℕ} {items : List ObjectValue} {row : List Spelled}
      (hitems : Spells d (.items items) row) :
      Spells (d + 1) (.value (.array items))
        (plain [0x5b] .arrayOpen :: (row ++ [plain [0x5d] .arrayClose]))
  | dictionary {d : ℕ} {entries : List (Bytes × ObjectValue)} {row : List Spelled}
      (hascending : Ascending entries) (hentries : Spells d (.entries entries) row) :
      Spells (d + 1) (.value (.dictionary entries))
        (plain [0x3c, 0x3c] .dictOpen :: (row ++ [plain [0x3e, 0x3e] .dictClose]))
  | noItems {d : ℕ} : Spells d (.items []) []
  | item {d : ℕ} {value : ObjectValue} {items : List ObjectValue} {row row' : List Spelled}
      (hvalue : Spells d (.value value) row) (hitems : Spells d (.items items) row') :
      Spells d (.items (value :: items)) (row ++ row')
  | noEntries {d : ℕ} : Spells d (.entries []) []
  | entry {d : ℕ} {n : Bytes} {value : ObjectValue} {entries : List (Bytes × ObjectValue)}
      {row row' : List Spelled} (hn : 0 ∉ n) (hvalue : Spells d (.value value) row)
      (hentries : Spells d (.entries entries) row') :
      Spells d (.entries ((0x2f :: n, value) :: entries)) (nameSpelled n :: (row ++ row'))

namespace LiveFrame

/-- The top frame takes a value next. -/
def Waits : List LiveFrame → Prop
  | .array _ :: _ => True
  | .dictionary values _ (some key) _ :: _ => values.lookup key = none
  | _ => False

theorem Waits.isOpen {frames : List LiveFrame} (h : Waits frames) : Open frames := by
  match frames, h with
  | .array _ :: _, _ => exact trivial
  | .dictionary _ _ (some _) _ :: _, h => exact h

end LiveFrame

open LiveFrame

namespace LiveParser

variable {input tail : Bytes} {p p' p'' : LiveParser} {frames frames' frames'' G : List LiveFrame}
  {row row' : List Spelled} {spelled : Spelled} {value : ObjectValue} {n m d : ℕ} {i : ℤ}

/-! ## Runs of turns -/

/-- Some turns of the loop, none of which ends it. -/
def Turns (n : ℕ) (p : LiveParser) (frames : List LiveFrame) (p' : LiveParser)
    (frames' : List LiveFrame) : Prop :=
  ∀ fuel, parseRemainder (fuel + n) p frames = parseRemainder fuel p' frames'

theorem turns_zero (p : LiveParser) (frames : List LiveFrame) : Turns 0 p frames p frames :=
  fun _ => rfl

theorem turns_one (h : p.remainderTurn frames = .ok (frames', p', none)) :
    Turns 1 p frames p' frames' := by
  intro fuel
  rw [parseRemainder, h]

theorem Turns.trans (h : Turns n p frames p' frames') (h' : Turns m p' frames' p'' frames'') :
    Turns (n + m) p frames p'' frames'' := by
  intro fuel
  rw [← h' fuel, ← h (fuel + m), Nat.add_assoc, Nat.add_comm m n]

/-- With the integers that are held back the frames are `G`, and a row is left to read. -/
structure At (input tail : Bytes) (p : LiveParser) (frames G : List LiveFrame)
    (row : List Spelled) : Prop where
  reads : Reads input tail p row
  pending : ∃ F run, Open F ∧ Pending p F run frames ∧ acceptAll F (integers run) = G

theorem At.isOpen (h : At input tail p frames G row) : Open G := by
  obtain ⟨F, run, hopen, -, rfl⟩ := h.pending
  exact hopen.acceptAll _

theorem at_of_empty (hreads : Reads input tail p row) (hcount : p.integerCount = 0)
    (hopen : Open G) : At input tail p G G row :=
  ⟨hreads, G, [], hopen, .empty hcount, acceptAll_nil G⟩

/-- The parser goes from one row to another and puts values into the frames. -/
def Goes (input tail : Bytes) (p : LiveParser) (frames : List LiveFrame) (n : ℕ)
    (G : List LiveFrame) (row : List Spelled) : Prop :=
  ∃ p' frames', Turns n p frames p' frames' ∧ At input tail p' frames' G row

theorem Goes.trans {G' : List LiveFrame} (h : Goes input tail p frames n G row)
    (h' : ∀ p' frames', At input tail p' frames' G row → Goes input tail p' frames' m G' row') :
    Goes input tail p frames (n + m) G' row' := by
  obtain ⟨p', frames', hturns, hat⟩ := h
  obtain ⟨p'', frames'', hturns', hat'⟩ := h' p' frames' hat
  exact ⟨p'', frames'', hturns.trans hturns', hat'⟩

/-- The token that comes next, when it is no part of a number or a reference. -/
theorem At.turn (h : At input tail p frames G (spelled :: row)) (htype : spelled.type ≠ .integer)
    (hvalue : spelled.type = .word → spelled.value ≠ ascii "R") :
    ∃ start p', Reads input tail p' row ∧ p'.integerCount = 0 ∧
      p.remainderTurn frames =
        p'.dispatch G (spelledToken start spelled.type spelled.value spelled.raw) := by
  obtain ⟨hreads, F, run, hopen, hpending, rfl⟩ := h
  exact remainderTurn_other hreads htype hvalue hopen hpending

/-- A scalar goes to the top frame. -/
theorem At.scalar (h : At input tail p frames G (spelled :: row)) (htype : spelled.type ≠ .integer)
    (hword : spelled.type ≠ .word)
    (hdispatch : ∀ (p : LiveParser) (start : ℕ),
      p.dispatch G (spelledToken start spelled.type spelled.value spelled.raw) =
        p.addScalar G (spelledToken start spelled.type spelled.value spelled.raw))
    (hscalar : ∀ (p : LiveParser) (start : ℕ),
      p.parseScalarToken (spelledToken start spelled.type spelled.value spelled.raw) =
        .ok (value, p)) : Goes input tail p frames 1 (acceptAll G [value]) row := by
  obtain ⟨start, p', hreads, hcount, hturn⟩ := h.turn htype (fun hw => absurd hw hword)
  refine ⟨p', acceptAll G [value], turns_one ?_,
    at_of_empty hreads hcount (h.isOpen.acceptAll [value])⟩
  rw [hturn, hdispatch, addScalar, hscalar]
  dsimp only [bind, Except.bind]
  rw [if_neg (by simp [hreads.giveUp]), addToTopFrame_eq h.isOpen]
  dsimp only [pure, Except.pure]
  rw [if_neg (by simp [hreads.giveUp])]

/-- An integer is held back, but counts as put. -/
theorem At.integer (h : At input tail p frames G (plain (intDecimal i) .integer :: row))
    (hlower : -2 ^ 63 ≤ i) (hupper : i < 2 ^ 63) :
    Goes input tail p frames 1 (acceptAll G [.integer i]) row := by
  obtain ⟨hreads, F, run, hopen, hpending, rfl⟩ := h
  have hfits : Fits (plain (intDecimal i) .integer) := by
    intro _
    rw [plain, intValue_intDecimal]
    exact ⟨hlower, hupper⟩
  obtain ⟨j, p', frames', hj, hturn, hreads', hpending'⟩ :=
    remainderTurn_integer hreads hfits rfl hopen hpending
  refine ⟨p', frames', turns_one hturn, hreads', F, run ++ [j], hopen, hpending', ?_⟩
  rw [plain, intValue_intDecimal] at hj
  have hone : integers [j] = [.integer i] := by rw [← hj, integers, List.map_singleton]
  rw [integers_append, acceptAll_append, hone]

/-- Two integers and an `R` put a reference. -/
theorem At.reference {number generation : ℤ} (h : At input tail p frames G
      (plain (intDecimal number) .integer :: plain (intDecimal generation) .integer ::
        plain (ascii "R") .word :: row))
    (hnumber : 1 ≤ number ∧ number < 2 ^ 31) (hgeneration : 0 ≤ generation ∧ generation < 65535) :
    Goes input tail p frames 3 (acceptAll G [.indirect ⟨number, generation⟩]) row := by
  obtain ⟨hreads, F, run, hopen, hpending, rfl⟩ := h
  have hfits : ∀ {v : ℤ}, 0 ≤ v ∧ v < 2 ^ 31 → Fits (plain (intDecimal v) .integer) := by
    intro v hv _
    rw [plain, intValue_intDecimal]
    omega
  obtain ⟨a, p₁, frames₁, ha, hturn₁, hreads₁, hpending₁⟩ :=
    remainderTurn_integer hreads (hfits (by omega)) rfl hopen hpending
  obtain ⟨b, p₂, frames₂, hb, hturn₂, hreads₂, hpending₂⟩ :=
    remainderTurn_integer hreads₁ (hfits (by omega)) rfl hopen hpending₁
  rw [plain, intValue_intDecimal] at ha hb
  rw [List.append_assoc, List.singleton_append] at hpending₂
  obtain ⟨p₃, hturn₃, hreads₃, hcount⟩ := remainderTurn_reference hreads₂ rfl rfl hopen hpending₂
    (ha ▸ hnumber) (hb ▸ hgeneration)
  rw [ha, hb, acceptAll_append] at hturn₃
  exact ⟨p₃, _, ((turns_one hturn₁).trans (turns_one hturn₂)).trans (turns_one hturn₃),
    at_of_empty hreads₃ hcount ((hopen.acceptAll _).acceptAll _)⟩

/-- A container opens a frame of its own. -/
theorem At.openArray (h : At input tail p frames G (plain [0x5b] .arrayOpen :: row))
    (hroom : G.length < maxParseDepth) : Goes input tail p frames 1 (.array [] :: G) row := by
  obtain ⟨start, p', hreads, hcount, hturn⟩ := h.turn (by decide) (by simp [plain])
  refine ⟨p', .array [] :: G, turns_one ?_, at_of_empty hreads hcount trivial⟩
  rw [hturn]
  simp [dispatch, pushFrame, spelledToken, plain, hreads.giveUp, Nat.not_le.mpr hroom, bind,
    Except.bind, pure, Except.pure]

theorem At.openDictionary (h : At input tail p frames G (plain [0x3c, 0x3c] .dictOpen :: row))
    (hroom : G.length < maxParseDepth) :
    ∃ frameOffset, Goes input tail p frames 1 (.dictionary [] [] none frameOffset :: G) row := by
  obtain ⟨start, p', hreads, hcount, hturn⟩ := h.turn (by decide) (by simp [plain])
  refine ⟨start + 2, p', .dictionary [] [] none (start + 2) :: G, turns_one ?_,
    at_of_empty hreads hcount trivial⟩
  rw [hturn]
  simp [dispatch, pushFrame, spelledToken, plain, hreads.giveUp, Nat.not_le.mpr hroom, bind,
    Except.bind, pure, Except.pure]

/-- The container on top is complete. -/
def closes (input tail : Bytes) (p : LiveParser) (frames G : List LiveFrame)
    (value : ObjectValue) (row : List Spelled) : Prop :=
  ∃ p', p.remainderTurn frames = p'.complete G value ∧ Reads input tail p' row ∧
    p'.integerCount = 0

theorem At.closeArray {values : List ObjectValue}
    (h : At input tail p frames (.array values :: G) (plain [0x5d] .arrayClose :: row)) :
    closes input tail p frames G (.array values) row := by
  obtain ⟨start, p', hreads, hcount, hturn⟩ := h.turn (by decide) (by simp [plain])
  exact ⟨p', hturn, hreads, hcount⟩

theorem At.closeDictionary {entries : List (Bytes × ObjectValue)} {frameOffset : ℕ}
    (h : At input tail p frames (.dictionary entries [] none frameOffset :: G)
      (plain [0x3e, 0x3e] .dictClose :: row)) :
    closes input tail p frames G (.dictionary entries) row := by
  obtain ⟨start, p', hreads, hcount, hturn⟩ := h.turn (by decide) (by simp [plain])
  exact ⟨p', hturn, hreads, hcount⟩

/-- Inside another container it is put there. -/
theorem closes.goes (h : closes input tail p frames G value row) (hopen : Open G) :
    Goes input tail p frames 1 (acceptAll G [value]) row := by
  obtain ⟨p', hturn, hreads, hcount⟩ := h
  refine ⟨p', acceptAll G [value], turns_one ?_,
    at_of_empty hreads hcount (hopen.acceptAll [value])⟩
  cases G with
  | nil => exact hopen.elim
  | cons frame G =>
    rw [hturn, complete, addToTopFrame_eq hopen]
    · simp [hreads.giveUp, bind, Except.bind, pure, Except.pure]
    · simp

/-- A key waits for its value. -/
theorem At.key {n : Bytes} {entries : List (Bytes × ObjectValue)} {frameOffset : ℕ}
    (h : At input tail p frames (.dictionary entries [] none frameOffset :: G)
      (nameSpelled n :: row)) (hfresh : entries.lookup (0x2f :: n) = none) :
    Goes input tail p frames 1 (.dictionary entries [] (some (0x2f :: n)) frameOffset :: G) row := by
  obtain ⟨start, p', hreads, hcount, hturn⟩ := h.turn (by simp [nameSpelled]) (by simp [nameSpelled])
  exact ⟨p', _, turns_one hturn, at_of_empty hreads hcount hfresh⟩

/-! ## Fragments -/

theorem lookup_of_ascending {before after : List (Bytes × ObjectValue)} {key : Bytes}
    (h : Ascending (before ++ (key, value) :: after)) : before.lookup key = none := by
  rw [List.lookup_eq_none_iff]
  intro e he
  have hlt := (List.pairwise_append.mp h).2.2 e he (key, value) List.mem_cons_self
  apply bne_iff_ne.mpr
  rintro rfl
  have hself : compare e.1 e.1 = .eq := Std.ReflCmp.compare_self
  rw [hself] at hlt
  cases hlt

/-- What the spellings of a fragment do to the frames. -/
def ReadsBack (input tail : Bytes) (d : ℕ) : Fragment → List Spelled → Prop
  | .value value, row => ∀ p frames G row', At input tail p frames G (row ++ row') → Waits G →
      G.length + d ≤ maxParseDepth →
        Goes input tail p frames row.length (acceptAll G [value]) row'
  | .items items, row => ∀ p frames G row' before,
      At input tail p frames (.array before :: G) (row ++ row') →
      G.length + 1 + d ≤ maxParseDepth →
        Goes input tail p frames row.length (.array (before ++ items) :: G) row'
  | .entries entries, row => ∀ p frames G row' before frameOffset,
      At input tail p frames (.dictionary before [] none frameOffset :: G) (row ++ row') →
      Ascending (before ++ entries) → G.length + 1 + d ≤ maxParseDepth →
        Goes input tail p frames row.length
          (.dictionary (before ++ entries) [] none frameOffset :: G) row'

theorem readsBack_scalar {spelled : Spelled} (htype : spelled.type ≠ .integer)
    (hword : spelled.type ≠ .word)
    (hdispatch : ∀ (p : LiveParser) (G : List LiveFrame) (start : ℕ), Waits G →
      p.dispatch G (spelledToken start spelled.type spelled.value spelled.raw) =
        p.addScalar G (spelledToken start spelled.type spelled.value spelled.raw))
    (hscalar : ∀ (p : LiveParser) (start : ℕ),
      p.parseScalarToken (spelledToken start spelled.type spelled.value spelled.raw) =
        .ok (value, p)) : ReadsBack input tail d (.value value) [spelled] := by
  intro p frames G row' hat hwaits hroom
  exact hat.scalar htype hword (fun p start => hdispatch p G start hwaits) hscalar

theorem Goes.cast (h : Goes input tail p frames n G row) (hn : n = m) :
    Goes input tail p frames m G row := hn ▸ h

theorem readsBack_of_spells (input tail : Bytes) {fragment : Fragment} (h : Spells d fragment row) :
    ReadsBack input tail d fragment row := by
  induction h with
  | null => exact readsBack_scalar (by decide) (by decide) (fun p G start _ => rfl) fun _ _ => rfl
  | boolean b =>
    apply readsBack_scalar (by simp [plain]) (by simp [plain]) (fun p G start _ => rfl)
    intro p start
    cases b <;> rfl
  | integer hlower hupper =>
    intro p frames G row' hat hwaits hroom
    exact hat.integer hlower hupper
  | real hspelling =>
    exact readsBack_scalar (by simp [plain]) (by simp [plain]) (fun p G start _ => rfl)
      fun _ _ => rfl
  | name hn =>
    apply readsBack_scalar (by simp [nameSpelled]) (by simp [nameSpelled]) ?_ fun _ _ => rfl
    intro p G start hwaits
    match G, hwaits with
    | .array _ :: _, _ => rfl
    | .dictionary _ _ (some _) _ :: _, _ => rfl
  | string hspelling =>
    exact readsBack_scalar (by simp) (by simp) (fun p G start _ => rfl) fun _ _ => rfl
  | reference hnumber hgeneration =>
    intro p frames G row' hat hwaits hroom
    exact hat.reference hnumber hgeneration
  | @array d items row hitems ih =>
    intro p frames G row' hat hwaits hroom
    rw [List.cons_append, List.append_assoc] at hat
    have hopened := hat.openArray (by omega)
    have hread : Goes input tail p frames (1 + row.length) (.array items :: G)
        ([plain [0x5d] .arrayClose] ++ row') :=
      hopened.trans fun p' frames' hat' => ih p' frames' G _ [] hat' (by omega)
    have hclosed := hread.trans fun p' frames' hat' => hat'.closeArray.goes hwaits.isOpen
    exact hclosed.cast (by simp only [List.length_cons, List.length_append, List.length_nil]; omega)
  | @dictionary d entries row hascending hentries ih =>
    intro p frames G row' hat hwaits hroom
    rw [List.cons_append, List.append_assoc] at hat
    obtain ⟨frameOffset, hopened⟩ := hat.openDictionary (by omega)
    have hread : Goes input tail p frames (1 + row.length)
        (.dictionary entries [] none frameOffset :: G)
        ([plain [0x3e, 0x3e] .dictClose] ++ row') :=
      hopened.trans fun p' frames' hat' =>
        ih p' frames' G _ [] frameOffset hat' hascending (by omega)
    have hclosed := hread.trans fun p' frames' hat' => hat'.closeDictionary.goes hwaits.isOpen
    exact hclosed.cast (by simp only [List.length_cons, List.length_append, List.length_nil]; omega)
  | noItems =>
    intro p frames G row' before hat hroom
    rw [List.append_nil]
    exact ⟨p, frames, turns_zero p frames, hat⟩
  | @item d value items row row' hvalue hitems ihvalue ihitems =>
    intro p frames G rest before hat hroom
    rw [List.append_assoc] at hat
    have hfirst := ihvalue p frames _ _ hat trivial (by simp only [List.length_cons]; omega)
    have hrest : Goes input tail p frames (row.length + row'.length)
        (.array ((before ++ [value]) ++ items) :: G) rest :=
      hfirst.trans fun p' frames' hat' => ihitems p' frames' G rest _ hat' hroom
    rw [List.append_assoc, List.singleton_append] at hrest
    exact hrest.cast List.length_append.symm
  | noEntries =>
    intro p frames G row' before frameOffset hat hascending hroom
    rw [List.append_nil]
    exact ⟨p, frames, turns_zero p frames, hat⟩
  | @entry d n value entries row row' hn hvalue hentries ihvalue ihentries =>
    intro p frames G rest before frameOffset hat hascending hroom
    have hfresh := lookup_of_ascending hascending
    have hlast : insertSorted (0x2f :: n) value before = before ++ [(0x2f :: n, value)] := by
      apply insertSorted_last
      intro e he
      exact (List.pairwise_append.mp hascending).2.2 e he _ List.mem_cons_self
    rw [List.cons_append, List.append_assoc] at hat
    have hkey := hat.key hfresh
    have hentry : Goes input tail p frames (1 + row.length)
        (.dictionary (before ++ [(0x2f :: n, value)]) [] none frameOffset :: G) (row' ++ rest) := by
      rw [← hlast]
      exact hkey.trans fun p' frames' hat' =>
        ihvalue p' frames' _ _ hat' hfresh (by simp only [List.length_cons]; omega)
    have hsplit : before ++ (0x2f :: n, value) :: entries =
        before ++ [(0x2f :: n, value)] ++ entries := by simp
    rw [hsplit] at hascending ⊢
    have hrest := hentry.trans fun p' frames' hat' =>
      ihentries p' frames' G rest _ frameOffset hat' hascending hroom
    exact hrest.cast (by simp only [List.length_cons, List.length_append]; omega)

/-! ## Whole objects -/

/-- A direct value, no reference to one. -/
def IsDirect : ObjectValue → Prop
  | .indirect _ => False
  | _ => True

theorem Reads.length_le (h : Reads input tail p row) : row.length ≤ p.tokens.input.length := by
  obtain ⟨text, hstands, htext⟩ := h.text
  have hrow := htext.length_le
  have hinput := hstands.pos_add
  omega

/-- A scalar on its own. -/
theorem parseBody_scalar (h : Reads input tail p (spelled :: row)) (hfits : Fits spelled)
    (hword : spelled.type ≠ .word) (harray : spelled.type ≠ .arrayOpen)
    (hdictionary : spelled.type ≠ .dictOpen)
    (hscalar : ∀ (p : LiveParser) (start : ℕ),
      p.parseScalarToken (spelledToken start spelled.type spelled.value spelled.raw) =
        .ok (value, p)) :
    ∃ p', p.parseBody = some (.ok (value, p')) ∧ Reads input tail p' row := by
  obtain ⟨start, tokens, htoken, hreads⟩ := h.nextToken hfits
  refine ⟨_, ?_, hreads⟩
  rw [parseBody, htoken]
  dsimp only
  rw [if_neg (by simp [Token.isWordValue, spelledToken, hword]),
    if_neg (by simp [spelledToken, harray, hdictionary]), hscalar]

/-- A container on its own ends the loop with its last spelling. -/
theorem parseRemainder_closes {fuel : ℕ} (hread : Goes input tail p frames n G (spelled :: row))
    (hclose : ∀ p' frames', At input tail p' frames' G (spelled :: row) →
      closes input tail p' frames' [] value row) (hfuel : n < fuel) :
    ∃ p', parseRemainder fuel p frames = some (.ok (value, p')) ∧ Reads input tail p' row := by
  obtain ⟨p', frames', hturns, hat⟩ := hread
  obtain ⟨p'', hturn, hreads, -⟩ := hclose p' frames' hat
  refine ⟨p'', ?_, hreads⟩
  obtain ⟨more, rfl⟩ : ∃ more, fuel = more + 1 + n := ⟨fuel - n - 1, by omega⟩
  rw [hturns (more + 1), parseRemainder, hturn]
  rfl

theorem parseBody_array {items : List ObjectValue} (h : Reads input tail p
      (plain [0x5b] .arrayOpen :: (row ++ [plain [0x5d] .arrayClose]))) (hcount : p.integerCount = 0)
    (hitems : Spells d (.items items) row) (hdepth : d < maxParseDepth) :
    ∃ p', p.parseBody = some (.ok (.array items, p')) ∧ Reads input tail p' [] := by
  have hlength := h.length_le
  simp only [List.length_cons, List.length_append, List.length_nil] at hlength
  obtain ⟨start, tokens, htoken, hreads⟩ := h.nextToken (by simp [Fits, plain])
  have hpush : LiveParser.pushFrame { p with tokens := tokens, lastOffset := start } []
      (spelledToken start .arrayOpen [0x5b] [0x5b]) =
        .ok (some [.array []], { p with tokens := tokens, lastOffset := start }) := by
    simp [pushFrame, maxParseDepth, spelledToken]
  have hbody : p.parseBody = parseRemainder (tokens.input.length + 2)
      { p with tokens := tokens, lastOffset := start } [.array []] := by
    rw [parseBody, htoken]
    dsimp only
    rw [if_neg (by simp [Token.isWordValue, spelledToken, plain]), if_pos (.inl rfl), plain, hpush]
    rfl
  rw [hbody]
  have hat : At input tail { p with tokens := tokens, lastOffset := start } [.array []] [.array []]
      (row ++ [plain [0x5d] .arrayClose]) :=
    at_of_empty hreads hcount trivial
  have hread := readsBack_of_spells input tail hitems _ _ [] _ [] hat
    (by simp only [List.length_nil]; omega)
  have hinput : tokens.input = p.tokens.input := hreads.input.trans h.input.symm
  exact parseRemainder_closes hread (fun _ _ hat' => hat'.closeArray) (by rw [hinput]; omega)

theorem parseBody_dictionary {entries : List (Bytes × ObjectValue)} (h : Reads input tail p
      (plain [0x3c, 0x3c] .dictOpen :: (row ++ [plain [0x3e, 0x3e] .dictClose])))
    (hcount : p.integerCount = 0) (hascending : Ascending entries)
    (hentries : Spells d (.entries entries) row) (hdepth : d < maxParseDepth) :
    ∃ p', p.parseBody = some (.ok (.dictionary entries, p')) ∧ Reads input tail p' [] := by
  have hlength := h.length_le
  simp only [List.length_cons, List.length_append, List.length_nil] at hlength
  obtain ⟨start, tokens, htoken, hreads⟩ := h.nextToken (by simp [Fits, plain])
  have hpush : LiveParser.pushFrame { p with tokens := tokens, lastOffset := start } []
      (spelledToken start .dictOpen [0x3c, 0x3c] [0x3c, 0x3c]) =
        .ok (some [.dictionary [] [] none (start + 2)],
          { p with tokens := tokens, lastOffset := start }) := by
    simp [pushFrame, maxParseDepth, spelledToken]
  have hbody : p.parseBody = parseRemainder (tokens.input.length + 2)
      { p with tokens := tokens, lastOffset := start } [.dictionary [] [] none (start + 2)] := by
    rw [parseBody, htoken]
    dsimp only
    rw [if_neg (by simp [Token.isWordValue, spelledToken, plain]), if_pos (.inr rfl), plain, hpush]
    rfl
  rw [hbody]
  have hat : At input tail { p with tokens := tokens, lastOffset := start }
      [.dictionary [] [] none (start + 2)] [.dictionary [] [] none (start + 2)]
      (row ++ [plain [0x3e, 0x3e] .dictClose]) :=
    at_of_empty hreads hcount trivial
  have hread := readsBack_of_spells input tail hentries _ _ [] _ [] (start + 2)
    hat hascending (by simp only [List.length_nil]; omega)
  have hinput : tokens.input = p.tokens.input := hreads.input.trans h.input.symm
  exact parseRemainder_closes hread (fun _ _ hat' => hat'.closeDictionary) (by rw [hinput]; omega)

/-- A direct value is read back from its spellings. -/
theorem parseBody_of_spells (h : Reads input tail p row) (hcount : p.integerCount = 0)
    (hspells : Spells d (.value value) row) (hdirect : IsDirect value) (hdepth : d ≤ maxParseDepth) :
    ∃ p', p.parseBody = some (.ok (value, p')) ∧ Reads input tail p' [] := by
  cases hspells with
  | null =>
    exact parseBody_scalar h (by simp [Fits, plain]) (by decide) (by decide) (by decide)
      fun _ _ => rfl
  | boolean b =>
    apply parseBody_scalar h (by simp [Fits, plain]) (by simp [plain]) (by simp [plain])
      (by simp [plain])
    intro p start
    cases b <;> rfl
  | integer hlower hupper =>
    apply parseBody_scalar h ?_ (by simp [plain]) (by simp [plain]) (by simp [plain])
    · intro p start
      rw [parseScalarToken, spelledToken, plain, intValue_intDecimal]
    · intro _
      rw [plain, intValue_intDecimal]
      exact ⟨hlower, hupper⟩
  | real hspelling =>
    exact parseBody_scalar h (by simp [Fits, plain]) (by simp [plain]) (by simp [plain])
      (by simp [plain]) fun _ _ => rfl
  | name hn =>
    exact parseBody_scalar h (by simp [Fits, nameSpelled]) (by simp [nameSpelled])
      (by simp [nameSpelled]) (by simp [nameSpelled]) fun _ _ => rfl
  | string hspelling =>
    exact parseBody_scalar h (by simp [Fits]) (by simp) (by simp) (by simp) fun _ _ => rfl
  | reference hnumber hgeneration => exact hdirect.elim
  | array hitems => exact parseBody_array h hcount hitems (by omega)
  | dictionary hascending hentries =>
    exact parseBody_dictionary h hcount hascending hentries (by omega)

end LiveParser

theorem trailingDataError_eq (lastOffset : ℕ) {input tail : Bytes} {n : ℕ}
    (hdrop : input.drop n = tail) (htail : tail.all isCWhitespace = true) :
    trailingDataError input n lastOffset = none := by
  rw [trailingDataError, hdrop, if_pos htail]

/-- A text of a value's spellings is read as the value, up to its end and with no warning. -/
theorem parseBody_text {d : ℕ} {value : ObjectValue} {row : List Spelled} {tail text : Bytes}
    (hspells : Spells d (.value value) row) (htext : Spaced tail row text)
    (hdirect : LiveParser.IsDirect value) (hdepth : d ≤ maxParseDepth) :
    ∃ p, LiveParser.parseBody { tokens := { input := text }, hasContext := true } =
        some (.ok (value, p)) ∧
      text.drop p.tokens.pos = tail ∧ p.tokens.pos + tail.length = text.length ∧
      p.diagnostics = [] := by
  have hreads : LiveParser.Reads text tail
      { tokens := { input := text }, hasContext := true } row :=
    ⟨rfl, ⟨text, ⟨LexState.noConfusion, rfl, Nat.zero_le _, rfl⟩, htext⟩, rfl, rfl, rfl⟩
  obtain ⟨p, hbody, hend⟩ := LiveParser.parseBody_of_spells hreads rfl hspells hdirect hdepth
  have hdrop := hend.standsAt.drop
  have hlength := hend.standsAt.pos_add
  rw [hend.input] at hdrop hlength
  exact ⟨p, hbody, hdrop, hlength, hend.diagnostics⟩

theorem parseObject_of_parseBody {value : ObjectValue} {p : LiveParser} {tail text : Bytes}
    (hbody : LiveParser.parseBody { tokens := { input := text }, hasContext := true } =
      some (.ok (value, p)))
    (hdrop : text.drop p.tokens.pos = tail) (htail : tail.all isCWhitespace = true) :
    parseObject true text = some (.ok (value, p.diagnostics)) := by
  rw [parseObject, hbody, Option.map_some]
  dsimp only [bind, Except.bind]
  rw [trailingDataError_eq p.lastOffset hdrop htail]
  rfl

end Flpdf
