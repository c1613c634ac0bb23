import PiggyOs.Partition
import PiggyOs.Transition

/-! The requests to the two devices of an ATA channel, interleaved with one another and with its interrupts. -/
namespace PiggyOs.AtaChannel
open PiggyOs.Partition Transition Function

/-- What a call does to the channel. -/
inductive Micro
  | finishDma | setSectors | fillPage | command | startDma | drainPage | sector | status
  deriving DecidableEq, Repr

def ataDeviceFlushCache (d : AtaDevice) : List Micro :=
  (if d.dmaSupported then [.finishDma] else []) ++ [.setSectors, .command, .status]

def ataDeviceReadDma : List Micro :=
  [.finishDma, .setSectors, .fillPage, .command, .startDma, .finishDma, .drainPage]

def ataDeviceWriteDma : List Micro := [.finishDma, .setSectors, .fillPage, .command, .startDma]

def ataDeviceReadPio (sectorCount : ℕ) : List Micro := [.setSectors, .command] ++ List.replicate sectorCount .sector

def ataDeviceWritePio (sectorCount : ℕ) : List Micro :=
  [.setSectors, .command] ++ List.replicate sectorCount .sector ++ [.command, .status]

inductive Request
  | read (count : BitVec 64)
  | write (count : BitVec 64)
  | sync

/-- The loop over full pages and the rest. -/
def pages (d : AtaDevice) (sectorCount : BitVec 64) (call : List Micro) : List (List Micro) :=
  let perPage := Partition.pageSize / d.sectorSize
  List.replicate (sectorCount / perPage).toNat call ++ if sectorCount % perPage ≠ 0 then [call] else []

/-- The calls of `ata_read`, `ata_write` and `ata_sync`, one after the other as long as they succeed. -/
def requestCalls (d : AtaDevice) : Request → List (List Micro)
  | .read count =>
      if count = 0 ∨ (d.type ≠ .pata ∧ d.type ≠ .sata) then []
      else if d.dmaSupported then pages d (count / d.sectorSize) ataDeviceReadDma
      else [ataDeviceReadPio (count / d.sectorSize).toNat]
  | .write count =>
      if count = 0 ∨ (d.type ≠ .pata ∧ d.type ≠ .sata) then []
      else if d.dmaSupported then pages d (count / d.sectorSize) ataDeviceWriteDma
      else [ataDeviceWritePio (count / d.sectorSize).toNat]
  | .sync => [ataDeviceFlushCache d]

/-- The call that has the lock. -/
structure Holder where
  thread : ℕ
  device : Bool
  rest : List Micro

/-- The flags of the channel, its lock, and the calls that each thread still has to make for its request. The code does
not keep whose transfer is pending, whether one has been overtaken, and whose errors have been reported by whom. -/
structure State where
  awaitingIrq : Bool
  dmaInProgress : Bool
  error : Bool
  holder : Option Holder
  threads : ℕ → Option (Bool × List (List Micro))
  pending : Option Bool
  overtaken : Bool
  reports : List (Bool × Bool)

inductive Event
  | request (thread : ℕ) (device : Bool) (r : Request)
  | acquire (thread : ℕ)
  | advance (ok : Bool)
  | irq (interrupt error : Bool)

/-- The lock is released. -/
def State.release (s : State) : State := { s with holder := none }

/-- The request is given up. -/
def State.fail (s : State) (h : Holder) : State := { s.release with threads := update s.threads h.thread none }

def State.goOn (s : State) (h : Holder) (rest : List Micro) : State := { s with holder := some { h with rest := rest } }

/-- The task file or the page of the channel is used. -/
def State.use (s : State) : State := { s with overtaken := s.overtaken || s.pending.isSome }

def ataChannelFinishDma (s : State) (h : Holder) (rest : List Micro) : State :=
  if !s.dmaInProgress then s.goOn h rest
  else if s.awaitingIrq then s
  else if s.error then
    { s.fail h with
      dmaInProgress := false
      pending := none
      reports := s.reports ++ (s.pending.map fun d => (d, h.device)).toList }
  else { s.goOn h rest with dmaInProgress := false, pending := none }

/-- The next thing that a call does; `ok` is what the device has to say where the call asks. -/
def advance (s : State) (h : Holder) (ok : Bool) : State :=
  match h.rest with
  | [] => s.release
  | .finishDma :: rest => ataChannelFinishDma s h rest
  | .startDma :: rest =>
      { s.use.goOn h rest with awaitingIrq := true, dmaInProgress := true, error := false, pending := some h.device }
  | .sector :: rest => if ok then s.goOn h rest else s.fail h
  | .status :: rest => if ok then s.goOn h rest else s.fail h
  | _ :: rest => s.use.goOn h rest

def ataIrqHandler (s : State) (interrupt error : Bool) : State :=
  if interrupt then { s with error := s.error || error, awaitingIrq := false } else s

/-- `none` where the event cannot happen. -/
def step (devices : Bool → AtaDevice) (s : State) : Event → Option State
  | .request t device r =>
      if s.threads t = none then
        some { s with threads := update s.threads t (some (device, requestCalls (devices device) r)) }
      else none
  | .acquire t =>
      match s.holder, s.threads t with
      | none, some (device, call :: calls) =>
          some { s with holder := some ⟨t, device, call⟩, threads := update s.threads t (some (device, calls)) }
      | none, some (_, []) => some { s with threads := update s.threads t none }
      | _, _ => none
  | .advance ok => s.holder.map fun h => advance s h ok
  | .irq interrupt error => some (ataIrqHandler s interrupt error)

def play (devices : Bool → AtaDevice) : State → List Event → Option State
  | s, [] => some s
  | s, e :: es => (step devices s e).bind fun s => play devices s es

/-- Nothing is going on; the flags may hold anything. -/
structure Idle (s : State) : Prop where
  holder : s.holder = none
  threads : ∀ t, s.threads t = none
  pending : s.pending = none
  overtaken : s.overtaken = false
  reports : s.reports = []

/-- While a transfer is pending, only devices with DMA get the lock, and one whose transfer has failed is followed by a
call to the same device. -/
def Undisturbed (devices : Bool → AtaDevice) (s : State) : Event → Prop
  | .acquire t => s.pending ≠ none → ∀ device call calls, s.threads t = some (device, call :: calls) →
      (devices device).dmaSupported = true ∧ (s.error = true → s.pending = some device)
  | .irq interrupt error => s.pending ≠ none → interrupt = true → error = true →
      ∀ h, s.holder = some h → s.pending = some h.device
  | _ => True

/-- A rest of a call uses the channel only when nothing is pending. -/
def guarded : Bool → List Micro → Bool
  | _, [] => true
  | _, .finishDma :: rest => guarded false rest
  | true, _ :: _ => false
  | false, .startDma :: rest => guarded true rest
  | false, _ :: rest => guarded false rest

section Guarded
variable {devices : Bool → AtaDevice} {s s' : State} {h : Holder}

lemma guarded_sectors (n : ℕ) {rest : List Micro} (hrest : guarded false rest = true) :
    guarded false (List.replicate n .sector ++ rest) = true := by
  induction n with
  | zero => exact hrest
  | succ n ih => exact ih

lemma mem_pages {d : AtaDevice} {sectorCount : BitVec 64} {call c : List Micro} (hc : c ∈ pages d sectorCount call) :
    c = call := by
  rw [pages, List.mem_append] at hc
  rcases hc with hc | hc
  · exact (List.mem_replicate.mp hc).2
  · split_ifs at hc
    · exact List.mem_singleton.mp hc
    · exact absurd hc List.not_mem_nil

/-- Every call is guarded when nothing is pending, and those of a device with DMA also otherwise. -/
lemma requestCalls_guarded (d : AtaDevice) (r : Request) {c : List Micro} (hc : c ∈ requestCalls d r) :
    guarded false c = true ∧ (d.dmaSupported = true → guarded true c = true) := by
  cases r with
  | read count =>
    rw [requestCalls] at hc
    split_ifs at hc with hnone hdma
    · exact absurd hc List.not_mem_nil
    · rw [mem_pages hc]
      exact ⟨rfl, fun _ => rfl⟩
    · rw [List.mem_singleton.mp hc]
      refine ⟨?_, fun h => absurd h hdma⟩
      have := guarded_sectors (count / d.sectorSize).toNat (show guarded false [] = true from rfl)
      rwa [List.append_nil] at this
  | write count =>
    rw [requestCalls] at hc
    split_ifs at hc with hnone hdma
    · exact absurd hc List.not_mem_nil
    · rw [mem_pages hc]
      exact ⟨rfl, fun _ => rfl⟩
    · rw [List.mem_singleton.mp hc]
      exact ⟨guarded_sectors (count / d.sectorSize).toNat rfl, fun h => absurd h hdma⟩
  | sync =>
    rw [List.mem_singleton.mp hc, ataDeviceFlushCache]
    cases d.dmaSupported with
    | false => exact ⟨rfl, fun h => absurd h Bool.false_ne_true⟩
    | true => exact ⟨rfl, fun _ => rfl⟩

/-- What holds while the runs are undisturbed. -/
structure Drained (devices : Bool → AtaDevice) (s : State) : Prop where
  pending : s.pending ≠ none → s.dmaInProgress = true
  holder : ∀ h, s.holder = some h → guarded s.pending.isSome h.rest = true ∧
    (s.pending ≠ none → s.error = true → s.pending = some h.device)
  threads : ∀ t device calls, s.threads t = some (device, calls) → ∀ c ∈ calls,
    guarded false c = true ∧ ((devices device).dmaSupported = true → guarded true c = true)
  overtaken : s.overtaken = false
  reports : ∀ r ∈ s.reports, r.1 = r.2

lemma Drained.release (h : Drained devices s) : Drained devices s.release :=
  ⟨h.pending, fun _ hh => absurd hh.symm (Option.some_ne_none _), h.threads, h.overtaken, h.reports⟩

lemma Drained.fail (h : Drained devices s) (holder : Holder) : Drained devices (s.fail holder) := by
  refine ⟨h.pending, fun _ hh => absurd hh.symm (Option.some_ne_none _), fun t device calls ht => ?_, h.overtaken,
    h.reports⟩
  replace ht : update s.threads holder.thread none t = some (device, calls) := ht
  by_cases hthread : t = holder.thread
  · subst hthread
    rw [update_self] at ht
    cases ht
  · rw [update_of_ne hthread] at ht
    exact h.threads t device calls ht

/-- A call that uses the channel finds nothing pending. -/
lemma Drained.use (h : Drained devices s) {holder : Holder} (hholder : s.holder = some holder) {op : Micro}
    {rest : List Micro} (hrest : holder.rest = op :: rest) (hop : guarded true (op :: rest) = false) :
    s.use = s ∧ s.pending = none := by
  have hguard := (h.holder holder hholder).1
  rw [hrest] at hguard
  cases hpending : s.pending with
  | none =>
    have hsame : (s.overtaken || s.pending.isSome) = s.overtaken := by
      rw [hpending, Option.isSome_none, Bool.or_false]
    exact ⟨by rw [State.use, hsame], rfl⟩
  | some d =>
    rw [hpending, Option.isSome_some, hop] at hguard
    cases hguard

lemma Drained.goOn (h : Drained devices s) (holder : Holder) {rest : List Micro} (hnone : s.pending = none)
    (hrest : guarded false rest = true) : Drained devices (s.goOn holder rest) := by
  refine ⟨h.pending, fun h' hh => ?_, h.threads, h.overtaken, h.reports⟩
  obtain rfl := Option.some.inj hh
  refine ⟨?_, fun hpending => absurd hnone hpending⟩
  change guarded s.pending.isSome rest = true
  rw [hnone]
  exact hrest

/-- Waiting for the transfer that is pending, and reporting its error to the device that it belongs to. -/
lemma Drained.finishDma (h : Drained devices s) {holder : Holder} (hholder : s.holder = some holder) {rest : List Micro}
    (hrest : holder.rest = .finishDma :: rest) : Drained devices (ataChannelFinishDma s holder rest) := by
  obtain ⟨hguard, howner⟩ := h.holder holder hholder
  rw [hrest] at hguard
  have hrest' : guarded false rest = true := by
    cases hpending : s.pending.isSome with
    | false => rwa [hpending] at hguard
    | true => rwa [hpending] at hguard
  rw [ataChannelFinishDma]
  split_ifs with hidle hwait herror
  · have hnone : s.pending = none := by
      by_contra hpending
      rw [h.pending hpending] at hidle
      cases hidle
    exact h.goOn holder hnone hrest'
  · exact h
  · have hfail := h.fail holder
    refine ⟨fun hno => absurd rfl hno, fun _ hh => absurd hh.symm (Option.some_ne_none _), hfail.threads, h.overtaken,
      fun r hr => ?_⟩
    rcases List.mem_append.mp hr with hr | hr
    · exact h.reports r hr
    · cases hpending : s.pending with
      | none =>
        rw [hpending] at hr
        exact absurd hr List.not_mem_nil
      | some d =>
        have hsame := howner (hpending ▸ Option.some_ne_none d) herror
        rw [hpending] at hr hsame
        rw [List.mem_singleton.mp hr]
        exact Option.some.inj hsame
  · refine ⟨fun hno => absurd rfl hno, fun h' hh => ?_, h.threads, h.overtaken, h.reports⟩
    obtain rfl := Option.some.inj hh
    exact ⟨hrest', fun hno => absurd rfl hno⟩

lemma Drained.startDma (h : Drained devices s) (holder : Holder) {rest : List Micro} (hrest : guarded true rest = true) :
    Drained devices { s.goOn holder rest with
      awaitingIrq := true
      dmaInProgress := true
      error := false
      pending := some holder.device } := by
  refine ⟨fun _ => rfl, fun h' hh => ?_, h.threads, h.overtaken, h.reports⟩
  obtain rfl := Option.some.inj hh
  exact ⟨hrest, fun _ herror => absurd herror Bool.false_ne_true⟩

lemma Drained.advance (h : Drained devices s) {holder : Holder} (hholder : s.holder = some holder) (ok : Bool) :
    Drained devices (advance s holder ok) := by
  have hguard := (h.holder holder hholder).1
  cases hrest : holder.rest with
  | nil =>
    rw [AtaChannel.advance, hrest]
    exact h.release
  | cons op rest =>
    by_cases hfinish : op = .finishDma
    · subst hfinish
      rw [AtaChannel.advance, hrest]
      exact h.finishDma hholder hrest
    have hop : guarded true (op :: rest) = false := by
      cases op <;> first | rfl | exact absurd rfl hfinish
    obtain ⟨huse, hnone⟩ := h.use hholder hrest hop
    rw [hrest, hnone, Option.isSome_none] at hguard
    rw [AtaChannel.advance, hrest]
    cases op with
    | finishDma => exact absurd rfl hfinish
    | startDma =>
      rw [huse]
      exact h.startDma holder hguard
    | sector =>
      dsimp only
      split_ifs
      · exact h.goOn holder hnone hguard
      · exact h.fail holder
    | status =>
      dsimp only
      split_ifs
      · exact h.goOn holder hnone hguard
      · exact h.fail holder
    | setSectors => exact huse.symm ▸ h.goOn holder hnone hguard
    | fillPage => exact huse.symm ▸ h.goOn holder hnone hguard
    | command => exact huse.symm ▸ h.goOn holder hnone hguard
    | drainPage => exact huse.symm ▸ h.goOn holder hnone hguard

/-- A thread gets other calls. -/
lemma Drained.setThread (h : Drained devices s) (t : ℕ) {new : Option (Bool × List (List Micro))}
    (hnew : ∀ device calls, new = some (device, calls) → ∀ c ∈ calls,
      guarded false c = true ∧ ((devices device).dmaSupported = true → guarded true c = true)) :
    Drained devices { s with threads := update s.threads t new } := by
  refine ⟨h.pending, h.holder, fun t' device calls ht => ?_, h.overtaken, h.reports⟩
  replace ht : update s.threads t new t' = some (device, calls) := ht
  by_cases hthread : t' = t
  · subst hthread
    rw [update_self] at ht
    exact hnew device calls ht
  · rw [update_of_ne hthread] at ht
    exact h.threads t' device calls ht

lemma Drained.step (h : Drained devices s) {e : Event} (hstep : step devices s e = some s')
    (hquiet : Undisturbed devices s e) : Drained devices s' := by
  cases e with
  | request t device r =>
    rw [AtaChannel.step] at hstep
    split_ifs at hstep
    obtain rfl := Option.some.inj hstep
    refine h.setThread t fun device' calls hnew c hc => ?_
    obtain ⟨rfl, rfl⟩ := Prod.mk.inj (Option.some.inj hnew)
    exact requestCalls_guarded _ r hc
  | acquire t =>
    rw [AtaChannel.step] at hstep
    split at hstep
    · rename_i device call calls hholder hthread
      obtain rfl := Option.some.inj hstep
      have hcalls := h.threads t device (call :: calls) hthread
      have hset : Drained devices { s with threads := update s.threads t (some (device, calls)) } :=
        h.setThread t fun device' calls' hnew c hc => by
          obtain ⟨rfl, rfl⟩ := Prod.mk.inj (Option.some.inj hnew)
          exact hcalls c (List.mem_cons_of_mem _ hc)
      refine ⟨hset.pending, fun h' hh => ?_, hset.threads, hset.overtaken, hset.reports⟩
      obtain rfl := Option.some.inj hh
      have hcall := hcalls call List.mem_cons_self
      cases hpending : s.pending with
      | none => exact ⟨hcall.1, fun hno => absurd rfl hno⟩
      | some d =>
        have hallowed := hquiet (hpending ▸ Option.some_ne_none d) device call calls hthread
        refine ⟨hcall.2 hallowed.1, fun _ herror => ?_⟩
        rw [← hpending]
        exact hallowed.2 herror
    · obtain rfl := Option.some.inj hstep
      exact h.setThread t fun _ _ hnew => absurd hnew.symm (Option.some_ne_none _)
    · cases hstep
  | advance ok =>
    rw [AtaChannel.step, Option.map_eq_some_iff] at hstep
    obtain ⟨holder, hholder, rfl⟩ := hstep
    exact h.advance hholder ok
  | irq interrupt error =>
    obtain rfl := Option.some.inj hstep
    rw [ataIrqHandler]
    split_ifs with hinterrupt
    · refine ⟨h.pending, fun h' hh => ⟨(h.holder h' hh).1, fun hpending herror => ?_⟩, h.threads, h.overtaken, h.reports⟩
      rcases Bool.or_eq_true_iff.mp herror with hold | hnew
      · exact (h.holder h' hh).2 hpending hold
      · exact hquiet hpending hinterrupt hnew h' hh
    · exact h

end Guarded

def idle : State := ⟨false, false, false, none, fun _ => none, none, false, []⟩

lemma idle_idle : Idle idle := ⟨rfl, fun _ => rfl, rfl, rfl, rfl⟩

/-- A disk with sectors of 512 bytes. -/
def disk (dmaSupported : Bool) : AtaDevice := ⟨.pata, dmaSupported, 64, 512⟩

/-- A thread writes one sector to the first device, which is still on its way when the thread is done. -/
def writeSector : List Event :=
  [.request 0 false (.write 512), .acquire 0, .advance true, .advance true, .advance true, .advance true, .advance true,
    .advance true]

lemma play_run {devices : Bool → AtaDevice} {s s' : State} {events : List Event} (h : play devices s events = some s') :
    Run (fun s e s' => step devices s e = some s') s events s' := by
  induction events generalizing s with
  | nil =>
    obtain rfl := Option.some.inj h
    exact .nil s
  | cons e es ih =>
    rw [play, Option.bind_eq_some_iff] at h
    obtain ⟨t, hstep, hrest⟩ := h
    exact .cons hstep (ih hrest)

end PiggyOs.AtaChannel
