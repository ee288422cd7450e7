import Flpdf.Bytes.Ascii
import Flpdf.Effects.Program

/-! # Stages of a pipeline

A stage is fed with writes and finished once.  A failing call ends the run; what
has been delivered before stays delivered.  Stages that are chained take turns, but
together they do what they do one after the other.
-/

namespace Flpdf

inductive PipelineError where
  | runtime (message : Bytes)
  | logic (message : Bytes)
  deriving DecidableEq, Repr

/-- An error, with what the next stage has been given before it. -/
structure StageFailure where
  error : PipelineError
  out : Bytes
  deriving DecidableEq, Repr

/-- The white space that the stages skip. -/
def isQpdfSpace (byte : UInt8) : Bool :=
  byte == 0x20 || byte == 0x09 || byte == 0x0a || byte == 0x0d || byte == 0x0b || byte == 0x0c

section Writes

variable {σ ε : Type}

/-- One write after the other; the first failure ends the run. -/
def writeAll (write : σ → Bytes → Except ε σ) (stage : σ) (chunks : List Bytes) : Except ε σ :=
  chunks.foldlM write stage

/-- A write that does nothing for no bytes and goes on where the last one stopped does not
see how its input is split. -/
theorem writeAll_eq (write : σ → Bytes → Except ε σ) (hnil : ∀ stage, write stage [] = .ok stage)
    (happend : ∀ stage data data',
      write stage (data ++ data') = (write stage data).bind (write · data')) (stage : σ)
    (chunks : List Bytes) : writeAll write stage chunks = write stage chunks.flatten := by
  induction chunks generalizing stage with
  | nil => exact (hnil stage).symm
  | cons data chunks ih =>
    rw [List.flatten_cons, happend, writeAll, List.foldlM_cons]
    cases hwrite : write stage data with
    | error failure => rfl
    | ok stage' => exact ih stage'

/-- A write that goes byte by byte. -/
theorem writeAll_foldlM (step : σ → UInt8 → Except ε σ) (stage : σ) (chunks : List Bytes) :
    writeAll (fun stage data => data.foldlM step stage) stage chunks =
      chunks.flatten.foldlM step stage :=
  writeAll_eq _ (fun _ => rfl) (fun _ _ _ => List.foldlM_append) stage chunks

end Writes

/-! ## Chains of stages -/

/-- What a call makes a stage do: its writes on the next stage, in order, and then its own
result. -/
structure Reaction (ε σ : Type) where
  writes : List Bytes
  result : Except ε σ

/-- A stage by itself; the last thing that `finish` does is to finish the next stage. -/
structure StageMachine (ε : Type) where
  State : Type
  start : State
  write : State → Bytes → Reaction ε State
  finish : State → Reaction ε Unit

section Chains

variable {ε : Type}

/-- What a source writes on and finishes; the end gives what the sink has been given. -/
structure Pipe (ε : Type) where
  State : Type
  start : State
  write : State → Bytes → Except ε State
  finish : State → Except ε Bytes

namespace Pipe

abbrev sink : Pipe ε where
  State := Bytes
  start := []
  write delivered data := .ok (delivered ++ data)
  finish delivered := .ok delivered

/-- A stage in front of a pipe: a stage behind it that fails ends the call. -/
abbrev through (stage : StageMachine ε) (next : Pipe ε) : Pipe ε where
  State := stage.State × next.State
  start := (stage.start, next.start)
  write state data := do
    let reaction := stage.write state.1 data
    let rest ← reaction.writes.foldlM next.write state.2
    let first ← reaction.result
    return (first, rest)
  finish state := do
    let reaction := stage.finish state.1
    let rest ← reaction.writes.foldlM next.write state.2
    let () ← reaction.result
    next.finish rest

def run (pipe : Pipe ε) (writes : List Bytes) : Except ε Bytes := do
  let state ← writes.foldlM pipe.write pipe.start
  pipe.finish state

end Pipe

namespace StageMachine

variable (stage : StageMachine ε)

/-- Some writes, with all that is written on the next stage for them. -/
def feed (state : stage.State) : List Bytes → Except ε (stage.State × List Bytes)
  | [] => .ok (state, [])
  | data :: rest => do
    let reaction := stage.write state data
    let state ← reaction.result
    let (last, writes) ← feed state rest
    return (last, reaction.writes ++ writes)

/-- The writes on the next stage in a whole run. -/
def run (writes : List Bytes) : Except ε (List Bytes) := do
  let (state, out) ← stage.feed stage.start writes
  let reaction := stage.finish state
  let () ← reaction.result
  return out ++ reaction.writes

/-- What a stage makes of some data. -/
def decode (data : Bytes) : Except ε Bytes := (stage.run [data]).map List.flatten

/-- The writes that come out of stages one after the other. -/
def runAll (stages : List (StageMachine ε)) (writes : List Bytes) : Except ε (List Bytes) :=
  stages.foldlM (fun writes stage => stage.run writes) writes

/-- What stages make of some data one after the other. -/
def decodeAll (stages : List (StageMachine ε)) (data : Bytes) : Except ε Bytes :=
  stages.foldlM (fun data stage => stage.decode data) data

/-- The pieces in which the data comes do not count. -/
def IgnoresSplits : Prop :=
  ∀ writes, (stage.run writes).map List.flatten = stage.decode writes.flatten

end StageMachine

namespace Pipe

variable {stage : StageMachine ε} {next : Pipe ε} {state state' : stage.State}
  {rest rest' : next.State} {writes : List Bytes} {out : Bytes}

theorem through_write {data : Bytes} :
    (through stage next).write (state, rest) data = .ok (state', rest') ↔
      (stage.write state data).result = .ok state' ∧
        (stage.write state data).writes.foldlM next.write rest = .ok rest' := by
  apply bind_eq_ok.trans
  constructor
  · rintro ⟨below, hwrites, hfirst⟩
    obtain ⟨first, hresult, hpair⟩ := bind_eq_ok.mp hfirst
    cases hpair
    exact ⟨hresult, hwrites⟩
  · rintro ⟨hresult, hwrites⟩
    exact ⟨rest', hwrites, bind_eq_ok.mpr ⟨state', hresult, rfl⟩⟩

/-- The pipe behind a stage sees the writes of the stage, and nothing else. -/
theorem foldlM_through :
    writes.foldlM (through stage next).write (state, rest) = .ok (state', rest') ↔
      ∃ between, stage.feed state writes = .ok (state', between) ∧
        between.foldlM next.write rest = .ok rest' := by
  induction writes generalizing state rest with
  | nil =>
    constructor
    · intro h
      cases h
      exact ⟨[], rfl, rfl⟩
    · rintro ⟨between, hfeed, hbetween⟩
      cases hfeed
      cases hbetween
      rfl
  | cons data writes ih =>
    rw [List.foldlM_cons, bind_eq_ok]
    constructor
    · rintro ⟨⟨first, below⟩, hwrite, hothers⟩
      obtain ⟨hresult, hwrites⟩ := through_write.mp hwrite
      obtain ⟨between, hfeed, hbetween⟩ := ih.mp hothers
      refine ⟨(stage.write state data).writes ++ between, ?_, ?_⟩
      · rw [StageMachine.feed, hresult, ok_bind, hfeed]
        rfl
      · rw [List.foldlM_append, hwrites, ok_bind, hbetween]
    · rintro ⟨between, hfeed, hbetween⟩
      rw [StageMachine.feed] at hfeed
      obtain ⟨first, hresult, hfeed⟩ := bind_eq_ok.mp hfeed
      obtain ⟨⟨last, others⟩, hothers, hpair⟩ := bind_eq_ok.mp hfeed
      cases hpair
      rw [List.foldlM_append] at hbetween
      obtain ⟨below, hwrites, hbelow⟩ := bind_eq_ok.mp hbetween
      exact ⟨(first, below), through_write.mpr ⟨hresult, hwrites⟩, ih.mpr ⟨_, hothers, hbelow⟩⟩

theorem through_finish :
    (through stage next).finish (state, rest) = .ok out ↔
      (stage.finish state).result = .ok () ∧ ∃ rest',
        (stage.finish state).writes.foldlM next.write rest = .ok rest' ∧
          next.finish rest' = .ok out := by
  apply bind_eq_ok.trans
  constructor
  · rintro ⟨rest', hwrites, hrest⟩
    obtain ⟨⟨⟩, hresult, hfinish⟩ := bind_eq_ok.mp hrest
    exact ⟨hresult, rest', hwrites, hfinish⟩
  · rintro ⟨hresult, rest', hwrites, hfinish⟩
    exact ⟨rest', hwrites, bind_eq_ok.mpr ⟨(), hresult, hfinish⟩⟩

/-- A stage in front of a pipe runs as if it were alone. -/
theorem run_through :
    (through stage next).run writes = .ok out ↔
      ∃ between, stage.run writes = .ok between ∧ next.run between = .ok out := by
  rw [run, bind_eq_ok]
  constructor
  · rintro ⟨⟨last, rest⟩, hwrites, hfinish⟩
    obtain ⟨fed, hfeed, hfed⟩ := foldlM_through.mp hwrites
    obtain ⟨hresult, rest', hlast, hrest⟩ := through_finish.mp hfinish
    refine ⟨fed ++ (stage.finish last).writes, ?_, ?_⟩
    · rw [StageMachine.run, hfeed, ok_bind]
      dsimp only
      rw [hresult]
      rfl
    · rw [run, List.foldlM_append, hfed, ok_bind, hlast, ok_bind, hrest]
  · rintro ⟨between, hrun, hnext⟩
    rw [StageMachine.run] at hrun
    obtain ⟨⟨last, fed⟩, hfeed, hrun⟩ := bind_eq_ok.mp hrun
    obtain ⟨⟨⟩, hresult, hpair⟩ := bind_eq_ok.mp hrun
    cases hpair
    rw [run, List.foldlM_append] at hnext
    obtain ⟨rest', hboth, hrest⟩ := bind_eq_ok.mp hnext
    obtain ⟨rest, hfed, hlast⟩ := bind_eq_ok.mp hboth
    exact ⟨(last, rest), foldlM_through.mpr ⟨fed, hfeed, hfed⟩,
      through_finish.mpr ⟨hresult, rest', hlast, hrest⟩⟩

theorem foldlM_sink (delivered : Bytes) (writes : List Bytes) :
    writes.foldlM (sink (ε := ε)).write delivered = .ok (delivered ++ writes.flatten) := by
  induction writes generalizing delivered with
  | nil => exact congrArg Except.ok (List.append_nil delivered).symm
  | cons data writes ih =>
    rw [List.flatten_cons, ← List.append_assoc]
    exact ih (delivered ++ data)

theorem run_sink (writes : List Bytes) : (sink (ε := ε)).run writes = .ok writes.flatten := by
  have hwrites := foldlM_sink (ε := ε) [] writes
  rw [List.nil_append] at hwrites
  exact bind_eq_ok.mpr ⟨writes.flatten, hwrites, rfl⟩

/-- Stages in a chain do what they do one after the other. -/
theorem run_chain (stages : List (StageMachine ε)) :
    (stages.foldr through sink).run writes = .ok out ↔
      ∃ outs, StageMachine.runAll stages writes = .ok outs ∧ outs.flatten = out := by
  induction stages generalizing writes with
  | nil =>
    rw [List.foldr_nil, run_sink]
    constructor
    · intro h
      exact ⟨writes, rfl, Except.ok.inj h⟩
    · rintro ⟨outs, hrun, hout⟩
      cases hrun
      exact congrArg Except.ok hout
  | cons stage stages ih =>
    rw [List.foldr_cons, run_through, StageMachine.runAll, List.foldlM_cons]
    constructor
    · rintro ⟨between, hrun, hothers⟩
      obtain ⟨outs, houts, hout⟩ := ih.mp hothers
      exact ⟨outs, bind_eq_ok.mpr ⟨between, hrun, houts⟩, hout⟩
    · rintro ⟨outs, houts, hout⟩
      obtain ⟨between, hrun, hothers⟩ := bind_eq_ok.mp houts
      exact ⟨between, hrun, ih.mpr ⟨outs, hothers, hout⟩⟩

/-- Where no stage sees how its input is split, a chain is the composition of what the stages
make of the data. -/
theorem run_chain_decode {stages : List (StageMachine ε)}
    (hsplits : ∀ stage ∈ stages, stage.IgnoresSplits) :
    (stages.foldr through sink).run writes = .ok out ↔
      StageMachine.decodeAll stages writes.flatten = .ok out := by
  induction stages generalizing writes with
  | nil =>
    rw [List.foldr_nil, run_sink]
    rfl
  | cons stage stages ih =>
    have hstage := hsplits stage List.mem_cons_self
    have hothers := fun other hmem => hsplits other (List.mem_cons_of_mem stage hmem)
    rw [List.foldr_cons, run_through, StageMachine.decodeAll, List.foldlM_cons, ← hstage writes]
    cases hrun : stage.run writes with
    | error failure =>
      constructor
      · rintro ⟨between, hbetween, -⟩
        cases hbetween
      · intro h
        cases h
    | ok between =>
      constructor
      · rintro ⟨_, hbetween, hnext⟩
        cases hbetween
        exact (ih hothers).mp hnext
      · intro h
        exact ⟨between, rfl, (ih hothers).mpr h⟩

end Pipe

/-! ## Stages that keep what they have delivered -/

section Keeping

variable {σ : Type}

/-- What a call has added to what was delivered before; an error comes with all that had been
delivered then. -/
def added (out : σ → Bytes) (state : σ) : Except (Bytes × ε) σ → Reaction ε σ
  | .ok state' => ⟨[(out state').drop (out state).length], .ok state'⟩
  | .error (delivered, failure) => ⟨[delivered.drop (out state).length], .error failure⟩

/-- A stage from a model that keeps what it has delivered. -/
abbrev StageMachine.keeping (start : σ) (write : σ → Bytes → Except (Bytes × ε) σ)
    (finish : σ → Except (Bytes × ε) σ) (out : σ → Bytes) : StageMachine ε where
  State := σ
  start := start
  write state data := added out state (write state data)
  finish state :=
    { writes := (added out state (finish state)).writes
      result := (finish state).map (fun _ => ()) |>.mapError Prod.snd }

end Keeping

end Chains

end Flpdf
