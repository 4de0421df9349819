import JzHdl.Lib.EventRun
import JzHdl.Cdc.ReqAckRuns
import JzHdl.Cdc.WordValues
import Mathlib.Order.Basic

/-! # Synchroniser depth

The declaration of a BIT or BUS crossing names a number of stages. The lowered
instance has two registers in the destination domain whatever the declaration
says, and its clocks come from the domains of the module.
-/

namespace JzHdl

open BitWords EventRun

/-! ## Declarations and lowering -/

/-- The crossings that show the source register through a chain of registers. -/
inductive SyncKind | bit | bus
  deriving DecidableEq

/-- A CDC entry that has passed the checks. The clocks are the identifiers of their ports. -/
structure CdcDecl where

  kind : SyncKind

  stages : Option ℕ

  sourceReg : ℕ

  srcClk : ℕ

  destAlias : ℕ

  destClk : ℕ

  /-- The width of the source register. -/
  width : ℕ

  stages_pos : ∀ n ∈ stages, 0 < n

  width_pos : 0 < width

  width_le : width ≤ 256

  bit_width : kind = .bit → width = 1

/-- The number of stages defaults to 2. -/
def CdcDecl.nStages (d : CdcDecl) : ℕ := d.stages.getD 2

structure IRCdc where

  type : SyncKind

  sourceRegId : ℕ

  sourceClockId : Option ℕ

  destAliasId : ℕ

  destClockId : Option ℕ

/-- The first domain that a clock port clocks. -/
def domainOf (domains : List IRClockDomain) (clk : ℕ) : Option ℕ :=
  domains.findIdx? fun cd => cd.clockSignalId == clk

/-- The entry of the module. The number of stages is not recorded. -/
def irBuildCdc (domains : List IRClockDomain) (d : CdcDecl) : IRCdc :=
  { type := d.kind
    sourceRegId := d.sourceReg
    sourceClockId := domainOf domains d.srcClk
    destAliasId := d.destAlias
    destClockId := domainOf domains d.destClk }

def makeConn (parentSigId : Option ℕ) (childPortId : ℕ) : IRInstanceConnection :=
  ⟨parentSigId, childPortId, none, false⟩

/-- The clock signal of a domain, unconnected when there is none. -/
def clockSignalOf (domains : List IRClockDomain) (id : Option ℕ) : Option ℕ :=
  (id.bind fun i => domains[i]?).map IRClockDomain.clockSignalId

def lowerCdcBit (domains : List IRClockDomain) (cdc : IRCdc) : List IRInstanceConnection :=
  [makeConn (clockSignalOf domains cdc.destClockId) 0, makeConn (some cdc.sourceRegId) 1,
    makeConn (some cdc.destAliasId) 2]

def lowerCdcBus (domains : List IRClockDomain) (cdc : IRCdc) : List IRInstanceConnection :=
  [makeConn (clockSignalOf domains cdc.sourceClockId) 0,
    makeConn (clockSignalOf domains cdc.destClockId) 1, makeConn (some cdc.sourceRegId) 2,
    makeConn (some cdc.destAliasId) 3]

/-- The connections of the instance that implements a crossing. -/
def lowerCdc (domains : List IRClockDomain) (cdc : IRCdc) : List IRInstanceConnection :=
  match cdc.type with
  | .bit => lowerCdcBit domains cdc
  | .bus => lowerCdcBus domains cdc

/-- The library module of a crossing, built for the width of the source register. -/
def libraryModule (type : SyncKind) (width : ℕ) : IRModule :=
  match type with
  | .bit => buildCdcBitModule
  | .bus => buildCdcBusModule width

/-! ## Runs -/

/-- What the module around a crossing does: the word in the source register before every event,
and the signals of the module that rise in it. -/
structure CrossingRun (width : ℕ) where

  words : ℕ → BitVec width

  rises : ℕ → ℕ → Bool

/-- The ports of the instance that rise with the signals they are connected to. -/
def risingPorts (conns : List IRInstanceConnection) (rises : ℕ → Bool) : List ℕ :=
  conns.filterMap fun conn =>
    if conn.parentSignalId.elim false rises then some conn.childPortId else none

/-- The ports that the source register and the alias are connected to. -/
def dataInPort : SyncKind → ℕ
  | .bit => 1
  | .bus => 2

def dataOutPort : SyncKind → ℕ
  | .bit => 2
  | .bus => 3

section

variable (domains : List IRClockDomain) (d : CdcDecl) (run : CrossingRun d.width)

def crossingEvent (n : ℕ) : LibEvent :=
  ⟨[(dataInPort d.kind, wordVal (run.words n))],
    risingPorts (lowerCdc domains (irBuildCdc domains d)) (run.rises n)⟩

/-- The destination alias before an event, with the asynchronous logic settled. -/
def aliasAt (n : ℕ) : SimValue :=
  signalAt (libraryModule d.kind d.width)
    (libRun (libraryModule d.kind d.width) (fun _ _ => simValZero 1)
      (crossingEvent domains d run) n)
    (crossingEvent domains d run n).inputs (dataOutPort d.kind)

/-- The source register changes at edges of its own clock, if the module clocks anything by it. -/
def SourceClocked : Prop := ∀ n, run.words (n + 1) ≠ run.words n →
  run.rises n d.srcClk = true ∧ (domainOf domains d.srcClk).isSome = true

/-- The word that enters the crossing at an edge of the destination clock. -/
def Enters (j : ℕ) (word : BitVec d.width) : Prop :=
  match d.kind with
  | .bit => word = run.words j
  | .bus => ∃ i < j, run.rises i d.srcClk = true ∧
      (∀ k, i < k → k < j → run.rises k d.srcClk = false) ∧ word = run.words i

end

/-- After every edge of the destination clock the alias shows the word that entered `n` edges
earlier. -/
def DelaysBy (n : ℕ) (domains : List IRClockDomain) (d : CdcDecl) : Prop :=
  ∀ run : CrossingRun d.width, SourceClocked domains d run → ∀ j e,
    run.rises j d.destClk = true → run.rises e d.destClk = true →
    Nat.count (fun k => run.rises k d.destClk = true) (e + 1) =
      Nat.count (fun k => run.rises k d.destClk = true) j + n →
    ∀ word, Enters d run j word → aliasAt domains d run (e + 1) = wordVal word

/-- The destination clock clocks something in the module. So does the source clock, and two stages
are declared; or the source register of a BIT crossing never changes and two stages are enough. -/
def TwoStagesFit (domains : List IRClockDomain) (d : CdcDecl) : Prop :=
  (domainOf domains d.destClk).isSome = true ∧
    if (domainOf domains d.srcClk).isSome then d.nStages = 2 else d.kind = .bit ∧ 2 ≤ d.nStages

/-! ## Two registers in a row -/

/-- Two registers that are clocked by the same edges, the second behind the first. -/
structure SyncChain {α : Type*} (zero : α) (edge : ℕ → Bool) (input first second : ℕ → α) :
    Prop where

  first_zero : first 0 = zero

  second_zero : second 0 = zero

  first_next : ∀ n, first (n + 1) = if edge n then input n else first n

  second_next : ∀ n, second (n + 1) = if edge n then first n else second n

namespace SyncChain

variable {α : Type*} {zero : α} {edge : ℕ → Bool} {input first second : ℕ → α}

/-- No edge lies between two edges that are one apart. -/
theorem first_kept (h : SyncChain zero edge input first second) {j e : ℕ} (hje : j < e)
    (hquiet : ∀ k, j < k → k < e → edge k = false) : first e = first (j + 1) := by
  induction e, hje using Nat.le_induction with
  | base => rfl
  | succ e hje ih =>
    rw [h.first_next, hquiet e (by omega) (by omega)]
    exact ih fun k hk hke => hquiet k hk (by omega)

theorem quiet_of_count {j e : ℕ} (hj : edge j = true) (he : edge e = true)
    (hcount : Nat.count (fun k => edge k = true) (e + 1) =
      Nat.count (fun k => edge k = true) j + 2) :
    j < e ∧ ∀ k, j < k → k < e → edge k = false := by
  have hj1 : Nat.count (fun k => edge k = true) (j + 1) =
      Nat.count (fun k => edge k = true) j + 1 := Nat.count_succ_eq_succ_count hj
  have he1 : Nat.count (fun k => edge k = true) (e + 1) =
      Nat.count (fun k => edge k = true) e + 1 := Nat.count_succ_eq_succ_count he
  have hlt : j < e := by
    by_contra hge
    have hmono := Nat.count_monotone (fun k => edge k = true) (show e ≤ j by omega)
    omega
  refine ⟨hlt, fun k hk hke => ?_⟩
  by_contra hedge
  have hk1 : Nat.count (fun k => edge k = true) (k + 1) =
      Nat.count (fun k => edge k = true) k + 1 :=
    Nat.count_succ_eq_succ_count (by simpa using hedge)
  have hlow := Nat.count_monotone (fun k => edge k = true) (show j + 1 ≤ k from hk)
  have hhigh := Nat.count_monotone (fun k => edge k = true) (show k + 1 ≤ e from hke)
  omega

/-- The second register shows the input of two edges earlier. -/
theorem delays (h : SyncChain zero edge input first second) {j e : ℕ} (hj : edge j = true)
    (he : edge e = true) (hcount : Nat.count (fun k => edge k = true) (e + 1) =
      Nat.count (fun k => edge k = true) j + 2) : second (e + 1) = input j := by
  obtain ⟨hlt, hquiet⟩ := quiet_of_count hj he hcount
  rw [h.second_next, he, if_pos rfl, h.first_kept hlt hquiet, h.first_next, hj, if_pos rfl]

/-- A constant input has arrived after two edges. -/
theorem settles (h : SyncChain zero edge input first second) {c : α} (hc : ∀ n, input n = c) :
    ∀ n, (1 ≤ Nat.count (fun k => edge k = true) n → first n = c) ∧
      (2 ≤ Nat.count (fun k => edge k = true) n → second n = c)
  | 0 => by simp
  | n + 1 => by
      obtain ⟨hfirst, hsecond⟩ := settles h hc n
      rw [h.first_next, h.second_next, Nat.count_succ]
      cases hedge : edge n
      · simpa using ⟨hfirst, hsecond⟩
      · simp only [if_true]
        exact ⟨fun _ => hc n, fun hcount => hfirst (by omega)⟩

end SyncChain

end JzHdl
