import CtrlEvents.System.Appender
import Mathlib.Data.List.Range
import Mathlib.Logic.Function.Basic

namespace CtrlEvents

structure Process where
  thisHost : Option Str
  localCounter : Int32
  appender : ℕ → EventAppender

namespace Process

open CtrlEvents.Action

inductive Effect
  | made (id : LocationId)
  | appended (i : ℕ) (effect : EventAppender.Effect)

abbrev Run := Action Process Effect Exn

def start (appender : ℕ → EventAppender) : Process := ⟨none, 0, appender⟩

/-- `Host::getHost`, which asks the system only until it has been told. -/
def getHost (gethostname : Option Str) : Run Str := do
  match (← get).thisHost with
  | some hostname => return hostname
  | none =>
    match gethostname with
    | some hostname =>
      modify fun s ↦ { s with thisHost := some hostname }
      return hostname
    | none => throw (.runtimeError (lit "call to gethostname() failed"))

def locationId (getpid : Int32) (gethostname : Option Str) : Run LocationId := do
  let hostname ← getHost gethostname
  let localID := (← get).localCounter
  modify fun s ↦ { s with localCounter := localID + 1 }
  Action.emit (.made ⟨hostname, getpid, localID⟩)
  return ⟨hostname, getpid, localID⟩

/-- `EventAppender::append` on one of the appenders. The properties that the source collects before
it makes the id are never refused. -/
def append (getpid : Int32) (gethostname : Option Str) (i : ℕ) (event : LoggingEvent) (now : Int64)
    (connection : Connection) (publication : Publication) : Run Unit := do
  let originatorId ← locationId getpid gethostname
  Action.focus (fun s ↦ s.appender i)
    (fun s a ↦ { s with appender := Function.update s.appender i a }) (.appended i)
    (EventAppender.append event originatorId now connection publication)

inductive Call
  | create (gethostname : Option Str)
  | copy (id : LocationId)
  | reconstitute (hostname : Str) (pid localID : Int32)
  | append (gethostname : Option Str) (i : ℕ) (event : LoggingEvent) (now : Int64)
      (connection : Connection) (publication : Publication)

def exec (getpid : Int32) : Call → Run (Option LocationId)
  | .create gethostname => do return some (← locationId getpid gethostname)
  | .copy id => return some ⟨id.hostname, id.pid, id.localID⟩
  | .reconstitute hostname pid localID => return some ⟨hostname, pid, localID⟩
  | .append gethostname i event now connection publication => do
    append getpid gethostname i event now connection publication
    return none

def Effect.made? : Effect → Option LocationId
  | made id => some id
  | appended .. => none

def made (rounds : List (Round Process Call Effect Exn (Option LocationId))) : List LocationId :=
  rounds.flatMap fun r ↦ r.effects.filterMap Effect.made?

def Call.gethostname? : Call → Option (Option Str)
  | create gethostname => some gethostname
  | append gethostname .. => some gethostname
  | _ => none

/-- How many ids calls are to make: one each, from the first that the host name could be had for. -/
def creations (calls : List Call) : ℕ :=
  ((calls.filterMap Call.gethostname?).dropWhile Option.isNone).length

variable {getpid : Int32} {s : Process} {c : Call}

theorem locationId_eq {gethostname : Option Str} {hostname : Str}
    (h : s.thisHost.or gethostname = some hostname) : locationId getpid gethostname s =
      (.ok ⟨hostname, getpid, s.localCounter⟩,
        { s with thisHost := some hostname, localCounter := s.localCounter + 1 },
        [.made ⟨hostname, getpid, s.localCounter⟩]) := by
  obtain ⟨thisHost, localCounter, appender⟩ := s
  cases thisHost with
  | some host =>
    cases h
    rfl
  | none =>
    cases h
    rfl

theorem locationId_failed {gethostname : Option Str} (h : s.thisHost.or gethostname = none) :
    locationId getpid gethostname s =
      (.error (.runtimeError (lit "call to gethostname() failed")), s, []) := by
  obtain ⟨thisHost, localCounter, appender⟩ := s
  cases thisHost with
  | some host => cases h
  | none =>
    cases h
    rfl

theorem append_eq (getpid : Int32) {gethostname : Option Str} {hostname : Str}
    (h : s.thisHost.or gethostname = some hostname) (i : ℕ) (event : LoggingEvent) (now : Int64)
    (connection : Connection) (publication : Publication) :
    ∃ (x : Except Exn Unit) (a : EventAppender) (w : List EventAppender.Effect),
      append getpid gethostname i event now connection publication s =
        (x, { s with
              thisHost := some hostname
              localCounter := s.localCounter + 1
              appender := Function.update s.appender i a },
          .made ⟨hostname, getpid, s.localCounter⟩ :: w.map (.appended i)) := by
  simp only [append, bind, Action.bind, locationId_eq h, focus]
  exact ⟨_, _, _, rfl⟩

theorem round_made (getpid : Int32) {gethostname : Option Str} {hostname : Str}
    (hc : c.gethostname? = some gethostname) (h : s.thisHost.or gethostname = some hostname) :
    (Action.round (exec getpid) s c).effects.filterMap Effect.made? =
        [⟨hostname, getpid, s.localCounter⟩] ∧
      (Action.round (exec getpid) s c).after.thisHost = some hostname ∧
      (Action.round (exec getpid) s c).after.localCounter = s.localCounter + 1 := by
  cases c with
  | copy id => cases hc
  | reconstitute hostname pid localID => cases hc
  | create gethostname =>
    cases hc
    simp only [Action.round, exec, bind, Action.bind, locationId_eq h]
    exact ⟨rfl, rfl, rfl⟩
  | append gethostname i event now connection publication =>
    cases hc
    obtain ⟨x, a, w, happend⟩ := append_eq getpid h i event now connection publication
    have hmade : (w.map (Effect.appended i)).filterMap Effect.made? = [] := by
      simp [List.filterMap_map, Function.comp_def, Effect.made?]
    simp only [Action.round, exec, bind, Action.bind, happend]
    cases x <;> simp [hmade, Effect.made?, pure, Action.pure]

theorem round_kept (getpid : Int32) (h : ∀ gethostname, c.gethostname? = some gethostname →
    s.thisHost.or gethostname = none) :
    (Action.round (exec getpid) s c).effects = [] ∧ (Action.round (exec getpid) s c).after = s := by
  cases c with
  | copy id => exact ⟨rfl, rfl⟩
  | reconstitute hostname pid localID => exact ⟨rfl, rfl⟩
  | create gethostname =>
    simp only [Action.round, exec, bind, Action.bind, locationId_failed (h _ rfl), and_self]
  | append gethostname i event now connection publication =>
    simp only [Action.round, exec, append, bind, Action.bind, locationId_failed (h _ rfl), and_self]

theorem made_kept (h : ∀ gethostname, c.gethostname? = some gethostname →
    s.thisHost.or gethostname = none) (calls : List Call) :
    made (history (exec getpid) s (c :: calls)) = made (history (exec getpid) s calls) := by
  obtain ⟨heffects, hafter⟩ := round_kept getpid h
  rw [history, made, List.flatMap_cons, ← made, heffects, hafter, List.filterMap_nil,
    List.nil_append]

theorem ofNat_add_one (m : ℕ) : Int32.ofNat m + 1 = Int32.ofNat (m + 1) :=
  (Int32.ofNat_add m 1).symm

theorem made_of_host {hostname : Str} {m : ℕ} (hs : s.thisHost = some hostname)
    (hm : s.localCounter = Int32.ofNat m) (calls : List Call) :
    made (history (exec getpid) s calls) =
      ((List.range' m (calls.filterMap Call.gethostname?).length).map Int32.ofNat).map
        (LocationId.mk hostname getpid) := by
  induction calls generalizing s m with
  | nil => rfl
  | cons c calls ih =>
    cases hc : c.gethostname? with
    | none =>
      rw [made_kept (by simp [hc]), ih hs hm, List.filterMap_cons_none hc]
    | some gethostname =>
      obtain ⟨heffects, hhost, hcounter⟩ := round_made getpid hc (by rw [hs]; rfl)
      rw [hm, ofNat_add_one] at hcounter
      rw [history, made, List.flatMap_cons, ← made, heffects, ih hhost hcounter,
        List.filterMap_cons_some hc, List.length_cons, List.range'_succ, hm]
      rfl

/-- The `k`-th id that a process makes has `k` for its local id, as far as 32 bits hold it. -/
theorem made_eq (getpid : Int32) {m : ℕ} (hs : s.thisHost = none)
    (hm : s.localCounter = Int32.ofNat m) (calls : List Call) :
    ∃ hostname, made (history (exec getpid) s calls) =
      ((List.range' m (creations calls)).map Int32.ofNat).map (LocationId.mk hostname getpid) := by
  induction calls with
  | nil => exact ⟨[], rfl⟩
  | cons c calls ih =>
    cases hc : c.gethostname? with
    | none =>
      rw [made_kept (by simp [hc]), creations, List.filterMap_cons_none hc, ← creations]
      exact ih
    | some gethostname =>
      rw [creations, List.filterMap_cons_some hc]
      cases gethostname with
      | none =>
        rw [made_kept (by simp [hc, hs])]
        exact ih
      | some hostname =>
        obtain ⟨heffects, hhost, hcounter⟩ := round_made getpid hc (by rw [hs]; rfl)
        rw [hm, ofNat_add_one] at hcounter
        refine ⟨hostname, ?_⟩
        rw [history, made, List.flatMap_cons, ← made, heffects, made_of_host hhost hcounter, hm]
        rfl

theorem ofNat_inj {m n : ℕ} : Int32.ofNat m = Int32.ofNat n ↔ m % 2 ^ 32 = n % 2 ^ 32 := by
  rw [← Int32.toBitVec_inj, ← BitVec.toNat_inj]
  exact Iff.rfl

theorem nodup_counted (n : ℕ) : ((List.range n).map Int32.ofNat).Nodup ↔ n ≤ 2 ^ 32 := by
  refine ⟨fun h ↦ ?_, fun hn ↦ ?_⟩
  · by_contra hn
    have h₀ : 0 ∈ List.range n := List.mem_range.2 (by omega)
    have h₁ : 2 ^ 32 ∈ List.range n := List.mem_range.2 (by omega)
    have hsame : Int32.ofNat 0 = Int32.ofNat (2 ^ 32) := ofNat_inj.2 (by omega)
    have hzero := List.inj_on_of_nodup_map h h₀ h₁ hsame
    omega
  · refine List.Nodup.map_on (fun k hk j hj h ↦ ?_) List.nodup_range
    rw [List.mem_range] at hk hj
    rw [ofNat_inj] at h
    omega

theorem nodup_made (getpid : Int32) (appender : ℕ → EventAppender) (calls : List Call) :
    (made (history (exec getpid) (start appender) calls)).Nodup ↔ creations calls ≤ 2 ^ 32 := by
  have hcounter : (start appender).localCounter = Int32.ofNat 0 := rfl
  obtain ⟨hostname, hmade⟩ := made_eq getpid (s := start appender) rfl hcounter calls
  have hinj : Function.Injective (LocationId.mk hostname getpid) := fun i j h ↦ by
    injection h
  rw [hmade, List.nodup_map_iff hinj, ← List.range_eq_range', nodup_counted]

structure Sound (getpid : Int32) (appender : ℕ → EventAppender) (calls : List Call) : Prop where
  distinct : (made (history (exec getpid) (start appender) calls)).Nodup
  copies : ∀ r ∈ history (exec getpid) (start appender) calls, ∀ id, r.call = .copy id →
    r.result = .ok (some id) ∧ r.after = r.before
  reconstituted : ∀ r ∈ history (exec getpid) (start appender) calls, ∀ hostname pid localID,
    r.call = .reconstitute hostname pid localID →
      r.result = .ok (some ⟨hostname, pid, localID⟩) ∧ r.after = r.before

/-- The ids of a process are sound exactly if it makes no more of them than the counter has
values. -/
theorem locationIds_sound_iff (getpid : Int32) (appender : ℕ → EventAppender)
    (calls : List Call) : Sound getpid appender calls ↔ creations calls ≤ 2 ^ 32 := by
  refine ⟨fun h ↦ (nodup_made getpid appender calls).1 h.distinct, fun h ↦ ⟨?_, ?_, ?_⟩⟩
  · exact (nodup_made getpid appender calls).2 h
  · intro r hr id hc
    rw [eq_round_of_mem hr, hc]
    exact ⟨rfl, rfl⟩
  · intro r hr hostname pid localID hc
    rw [eq_round_of_mem hr, hc]
    exact ⟨rfl, rfl⟩

theorem creations_replicate (n : ℕ) (hostname : Str) :
    creations (List.replicate n (.create (some hostname))) = n := by
  cases n with
  | zero => rfl
  | succ n => simp [creations, List.filterMap_replicate, Call.gethostname?, List.replicate_succ]

theorem locationIds_repeat : ¬ ∀ (getpid : Int32) (appender : ℕ → EventAppender)
    (calls : List Call), Sound getpid appender calls := by
  intro hall
  have h := (hall 1 (fun _ ↦ .new)
    (List.replicate (2 ^ 32 + 1) (.create (some (lit "host"))))).distinct
  rw [nodup_made, creations_replicate] at h
  omega

end Process

end CtrlEvents
