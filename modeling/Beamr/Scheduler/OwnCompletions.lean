import Beamr.Lib.Runs
import Beamr.Lib.Identities
import Beamr.Scheduler.Suspensions

/-!
# Completions are applied to their own suspension

A call id is issued once and is then held by a request, a suspension or a result that is being
applied, or has been applied. What the gate logs is proper but for two choices, where it does not
look at whose operation or timer it has found.
-/
namespace Beamr.Scheduler
namespace AwaitSystem

variable {s : AwaitSystem}

/-- The call id of a result that is being applied. -/
def SliceStage.callIds : SliceStage → List ℕ
  | .gate (.applyMirror record _) => [record.callId]
  | .gate (.applyMarks record _) => [record.callId]
  | _ => []

def appliedIds (s : AwaitSystem) : List ℕ := s.log.filterMap SuspensionEvent.appliedId

/-- The call ids under which a result may still be applied, or has been. -/
def callIds (s : AwaitSystem) : List ℕ :=
  s.suspension.toList.map (·.callId) ++
    (s.request.toList.map (·.1) ++ (SliceStage.callIds s.stage ++ s.appliedIds))

/-- What each stage of a slice knows of the suspension. -/
def Fits (s : AwaitSystem) : SliceStage → Prop
  | .parked => True
  | .exited => True
  | .running => s.suspension = none
  | .gate .takeResult => True
  | .gate .dropStale => True
  | .gate (.applyMirror record result) =>
    s.suspension = none ∧ result.callId = record.callId
  | .gate (.applyMarks record result) =>
    s.suspension = none ∧ result.callId = record.callId ∧ s.codePosition = record.position
  | .gate .fileIo => ∀ record, s.suspension = some record → record.kind = .hostAwait
  | .gate .timer => ∀ record, s.suspension = some record → record.kind = .hostAwait
  | .gate .resume => ∀ record, s.suspension = some record → record.kind = .hook
  | .gate .staleResume => True
  | .gate _ => s.suspension = none

/-- A call id is open or applied once, and the stage of the slice fits the suspension. -/
structure Regular (s : AwaitSystem) : Prop where
  ids : Identities.Issued s.lastCallId s.callIds
  fits : s.Fits s.stage

theorem regular_new : new.Regular := ⟨Identities.issued_nil 0, trivial⟩

theorem Regular.ite {condition : Prop} [Decidable condition] {t u : AwaitSystem} (ht : t.Regular)
    (hu : u.Regular) : (if condition then t else u).Regular := by
  split
  · exact ht
  · exact hu

/-- A step that opens no call id. -/
theorem Regular.shrink {t : AwaitSystem} (h : s.Regular) (hlast : t.lastCallId = s.lastCallId)
    (hsuspension : t.suspension = s.suspension ∨ t.suspension = none)
    (hrequest : t.request = s.request ∨ t.request = none)
    (hstage : SliceStage.callIds t.stage = []) (happlied : t.appliedIds = s.appliedIds)
    (hfits : t.Fits t.stage) : t.Regular := by
  refine ⟨?_, hfits⟩
  rw [hlast]
  refine h.ids.subperm (List.Sublist.subperm ?_)
  rw [callIds, callIds, hstage, happlied]
  refine List.Sublist.append ?_ (List.Sublist.append ?_ (List.sublist_append_right ..))
  · rcases hsuspension with heq | heq
    · rw [heq]
    · rw [heq]
      exact List.nil_sublist _
  · rcases hrequest with heq | heq
    · rw [heq]
    · rw [heq]
      exact List.nil_sublist _

/-- Both states have the same call ids, open and applied. -/
structure SameIds (t s : AwaitSystem) : Prop where
  suspension : t.suspension = s.suspension
  request : t.request = s.request
  stage : t.stage = s.stage
  lastCallId : t.lastCallId = s.lastCallId
  log : t.log = s.log

theorem sameIds_registerReceiveTimer : SameIds s.registerReceiveTimer s := by
  unfold registerReceiveTimer
  split
  · exact ⟨rfl, rfl, rfl, rfl, rfl⟩
  · exact ⟨rfl, rfl, rfl, rfl, rfl⟩

theorem sameIds_applyExpiredReceiveTimer : SameIds s.applyExpiredReceiveTimer s := by
  unfold applyExpiredReceiveTimer
  split
  · exact ⟨rfl, rfl, rfl, rfl, rfl⟩
  · exact ⟨rfl, rfl, rfl, rfl, rfl⟩

theorem sameIds_requestTimeout (timeout : Bool) : SameIds (s.requestTimeout timeout) s := by
  unfold requestTimeout
  split
  · exact ⟨rfl, rfl, rfl, rfl, rfl⟩
  · exact ⟨rfl, rfl, rfl, rfl, rfl⟩

theorem SameIds.appliedIds {t : AwaitSystem} (h : SameIds t s) : t.appliedIds = s.appliedIds :=
  congrArg (List.filterMap SuspensionEvent.appliedId) h.log

theorem SameIds.issued {t : AwaitSystem} (h : SameIds t s)
    (hids : Identities.Issued s.lastCallId s.callIds) :
    Identities.Issued t.lastCallId t.callIds := by
  rw [h.lastCallId, callIds, h.suspension, h.request, h.stage, h.appliedIds]
  exact hids

/-- A process that parks keeps the call ids of its suspension. -/
theorem regular_parked (hids : Identities.Issued s.lastCallId s.callIds) :
    ({ s with stage := .parked }).Regular := by
  refine ⟨hids.subperm (List.Sublist.subperm ?_), trivial⟩
  exact List.Sublist.append (List.Sublist.refl _)
    (List.Sublist.append (List.Sublist.refl _) (List.sublist_append_right ..))

theorem regular_wait (hids : Identities.Issued s.lastCallId s.callIds) : s.wait.Regular :=
  regular_parked (sameIds_registerReceiveTimer.issued hids)

/-- A suspension under the next call id, in place of the one before. -/
theorem issued_suspend (hids : Identities.Issued s.lastCallId s.callIds) (kind : SuspensionKind)
    (wakeOnMessage : Bool) :
    Identities.Issued (s.lastCallId + 1) (s.suspend kind wakeOnMessage).callIds :=
  hids.next.subperm
    (List.Sublist.subperm (List.Sublist.cons_cons _ (List.sublist_append_right ..)))

theorem Regular.takeResult (h : s.Regular) {record : SuspensionRecord}
    (hstage : s.stage = .gate .takeResult) (hsuspension : s.suspension = some record) :
    (s.takeResult record).Regular := by
  have hgoto : (s.goto .dropStale).Regular :=
    h.shrink rfl (.inl rfl) (.inl rfl) rfl rfl trivial
  unfold AwaitSystem.takeResult
  split
  · split
    next result _ hid =>
      refine ⟨?_, rfl, hid⟩
      refine h.ids.subperm (List.Perm.subperm ?_)
      simp only [callIds, hstage, hsuspension, SliceStage.callIds, Option.toList_none,
        Option.toList_some, List.map_nil, List.map_cons, List.nil_append, List.cons_append]
      exact List.perm_middle
    next => exact hgoto
  · exact hgoto

theorem Regular.applyMirror (h : s.Regular) {record : SuspensionRecord}
    {result : PendingSuspensionResult} (hstage : s.stage = .gate (.applyMirror record result)) :
    (s.runGate (.applyMirror record result)).Regular := by
  obtain ⟨hids, hfits⟩ := h
  rw [hstage] at hfits
  dsimp only [runGate]
  split
  next hposition =>
    refine ⟨?_, hfits.1, hfits.2, hposition.symm⟩
    simp only [callIds, hstage] at hids
    exact hids
  next =>
    exact Regular.shrink ⟨hids, hstage ▸ hfits⟩ rfl (.inl rfl) (.inl rfl) rfl rfl trivial

theorem Regular.applyMarks (h : s.Regular) {record : SuspensionRecord}
    {result : PendingSuspensionResult} (hstage : s.stage = .gate (.applyMarks record result)) :
    (s.runGate (.applyMarks record result)).Regular := by
  obtain ⟨hids, hfits⟩ := h
  rw [hstage] at hfits
  obtain ⟨hnone, _, _⟩ := hfits
  have hcallIds : SliceStage.callIds (afterApplied result.payload) = [] := by
    cases result.payload with
    | host => rfl
    | dirty suspend =>
      cases suspend with
      | none => rfl
      | some suspend => rfl
  refine ⟨hids.subperm (List.Perm.subperm ?_), ?_⟩
  · have hopen : SliceStage.callIds (.gate (.applyMarks record result)) = [record.callId] := rfl
    simp only [callIds, runGate, note, hstage, hnone, hcallIds, hopen, appliedIds,
      List.filterMap_append, List.filterMap_cons, List.filterMap_nil, SuspensionEvent.appliedId,
      Option.toList_none, List.map_nil, List.nil_append, List.cons_append]
    exact (List.perm_append_singleton ..).append_left _
  · simp only [runGate]
    cases result.payload with
    | host => exact hnone
    | dirty suspend =>
      cases suspend with
      | none => exact hnone
      | some suspend => exact hnone

theorem Regular.consumeFileIo (h : s.Regular) {record : SuspensionRecord}
    (hkind : record.kind = .hostAwait) (hsuspension : s.suspension = some record) :
    (s.consumeFileIo record).Regular := by
  unfold AwaitSystem.consumeFileIo
  split
  · exact h.shrink rfl (.inr rfl) (.inl rfl) rfl (by simp [appliedIds, note, clearReceiveTimeout,
      SuspensionEvent.appliedId]) rfl
  · refine h.shrink rfl (.inl rfl) (.inl rfl) rfl rfl fun other hother => ?_
    rw [← Option.some.inj (hsuspension.symm.trans hother)]
    exact hkind

theorem appliedIds_note {event : SuspensionEvent} (hevent : event.appliedId = none) :
    (s.note event).appliedIds = s.appliedIds := by
  simp [appliedIds, note, hevent]

theorem Regular.consumeTimer (h : s.Regular) (record : SuspensionRecord) :
    (s.consumeTimer record).Regular := by
  have hsame : SameIds s.applyExpiredReceiveTimer s := sameIds_applyExpiredReceiveTimer
  unfold AwaitSystem.consumeTimer
  split
  · exact h.shrink hsame.lastCallId (.inr rfl) (.inl hsame.request) rfl
      ((appliedIds_note rfl).trans hsame.appliedIds) rfl
  · split
    · exact h.shrink hsame.lastCallId (.inr rfl) (.inl hsame.request) rfl
        ((appliedIds_note rfl).trans hsame.appliedIds) rfl
    · exact regular_wait (hsame.issued h.ids)

theorem Regular.consumeResume (h : s.Regular) (record : SuspensionRecord) :
    (s.consumeResume record).Regular := by
  unfold AwaitSystem.consumeResume
  split
  · split
    · exact h.shrink rfl (.inr rfl) (.inl rfl) rfl (appliedIds_note rfl) rfl
    · exact h.shrink rfl (.inl rfl) (.inl rfl) rfl rfl trivial
  · exact h.shrink rfl (.inl rfl) (.inl rfl) rfl rfl trivial

/-- The kind of the suspension decides where the gate goes on. -/
theorem Regular.dropStale (h : s.Regular) {record : SuspensionRecord}
    (hsuspension : s.suspension = some record) : (s.dropStale record).Regular := by
  have hsame : ∀ other, s.suspension = some other → other.kind = record.kind := fun other hother =>
    congrArg SuspensionRecord.kind (Option.some.inj (hother.symm.trans hsuspension))
  unfold AwaitSystem.dropStale
  cases hkind : record.kind with
  | hostAwait =>
    exact h.shrink rfl (.inl rfl) (.inl rfl) rfl rfl fun other hother =>
      (hsame other hother).trans hkind
  | dirtyCall => exact h.shrink rfl (.inl rfl) (.inl rfl) rfl rfl trivial
  | hook =>
    exact h.shrink rfl (.inl rfl) (.inl rfl) rfl rfl fun other hother =>
      (hsame other hother).trans hkind

theorem Regular.gate (h : s.Regular) {stage : GateStage} (hstage : s.stage = .gate stage) :
    (s.runGate stage).Regular := by
  have hfits : s.Fits (.gate stage) := hstage ▸ h.fits
  have helim : ∀ f : SuspensionRecord → AwaitSystem,
      (∀ record, s.suspension = some record → (f record).Regular) →
        (s.suspension.elim s f).Regular := by
    intro f hf
    cases hsuspension : s.suspension with
    | none => exact h
    | some record => exact hf record hsuspension
  cases stage with
  | dropMirror => exact h.shrink rfl (.inl rfl) (.inl rfl) rfl rfl hfits
  | dropOrphan => exact h.shrink rfl (.inl rfl) (.inl rfl) rfl rfl hfits
  | plainTimer =>
    have hsame : SameIds s.applyExpiredReceiveTimer s := sameIds_applyExpiredReceiveTimer
    exact h.shrink hsame.lastCallId (.inl hsame.suspension) (.inl hsame.request) rfl
      hsame.appliedIds (hsame.suspension.trans hfits)
  | takeResult => exact helim _ fun record => h.takeResult hstage
  | applyMirror record result => exact h.applyMirror hstage
  | applyMarks record result => exact h.applyMarks hstage
  | dirtySuspend suspend =>
    dsimp only [runGate]
    split
    · have hids := (sameIds_requestTimeout suspend.timeout).issued h.ids
      exact regular_wait (issued_suspend hids .hostAwait suspend.wakeOnMessage)
    · exact h.shrink rfl (.inl rfl) (.inl rfl) rfl rfl trivial
  | dropStale => exact helim _ fun record => h.dropStale
  | fileIo => exact helim _ fun record hsome => h.consumeFileIo (hfits record hsome) hsome
  | fileIoMirror => exact h.shrink rfl (.inl rfl) (.inl rfl) rfl rfl hfits
  | fileIoMarks => exact h.shrink rfl (.inl rfl) (.inl rfl) rfl rfl hfits
  | timer => exact helim _ fun record _ => h.consumeTimer record
  | endMirror => exact h.shrink rfl (.inl rfl) (.inl rfl) rfl rfl hfits
  | resume => exact helim _ fun record _ => h.consumeResume record
  | resumeMirror => exact h.shrink rfl (.inl rfl) (.inl rfl) rfl rfl hfits
  | staleResume => exact h.shrink rfl (.inl rfl) (.inl rfl) rfl rfl trivial

/-- A step of the slice that leaves the suspension and the call ids alone. -/
theorem Regular.running {t : AwaitSystem} (h : s.Regular) (hstage : s.stage = .running)
    (hlast : t.lastCallId = s.lastCallId) (hsuspension : t.suspension = s.suspension)
    (hrequest : t.request = s.request ∨ t.request = none) (hstage' : t.stage = s.stage)
    (happlied : t.appliedIds = s.appliedIds) : t.Regular := by
  have hnone : s.Fits .running := hstage ▸ h.fits
  rw [hstage] at hstage'
  refine h.shrink hlast (.inl hsuspension) hrequest ?_ happlied ?_
  · rw [hstage']
    rfl
  · rw [hstage']
    exact hsuspension.trans hnone

theorem Regular.requestSuspend (h : s.Regular) (hstage : s.stage = .running)
    (request : SuspendRequest) : (s.requestSuspend request).Regular := by
  have hnone : s.Fits .running := hstage ▸ h.fits
  have hsuspension : s.suspension = none := hnone
  have hkept : (s.requestSuspend request).callIds.Sublist ((s.lastCallId + 1) :: s.callIds) := by
    simp only [callIds, AwaitSystem.requestSuspend, registerSuspensionMirror, hsuspension,
      Option.toList_none, Option.toList_some, List.map_nil, List.map_cons, List.nil_append,
      List.cons_append]
    exact List.Sublist.cons_cons _ (List.sublist_append_right ..)
  exact ⟨h.ids.next.subperm hkept.subperm, h.fits⟩

/-- The call id goes from the request to the suspension. -/
theorem Regular.handleSuspend (h : s.Regular) (hstage : s.stage = .running) :
    s.handleSuspend.Regular := by
  have hnone : s.Fits .running := hstage ▸ h.fits
  have hsuspension : s.suspension = none := hnone
  unfold AwaitSystem.handleSuspend
  split
  next callId request hrequest =>
    refine Regular.ite (regular_wait ?_) (h.shrink rfl (.inl rfl) (.inl rfl) rfl rfl trivial)
    have hids := (sameIds_requestTimeout request.timeout).issued h.ids
    have hsame : SameIds (s.requestTimeout request.timeout) s := sameIds_requestTimeout _
    simp only [callIds, hsame.suspension, hsuspension, hsame.request, hrequest] at hids
    exact hids
  next => exact h

theorem Regular.slice (h : s.Regular) (hstage : s.stage = .running) (sliceStep : AwaitSliceStep) :
    (s.runSlice sliceStep).Regular := by
  cases sliceStep with
  | moveTo position => exact h.running hstage rfl rfl (.inl rfl) rfl rfl
  | enterNative => exact h.running hstage rfl rfl (.inr rfl) rfl rfl
  | requestSuspend request => exact h.requestSuspend hstage request
  | cancelSuspend => exact h.running hstage rfl rfl (.inr rfl) rfl rfl
  | submit => exact h.running hstage rfl rfl (.inl rfl) rfl rfl
  | track op active =>
    dsimp only [runSlice, AwaitSystem.track]
    split
    · exact h.running hstage rfl rfl (.inl rfl) rfl rfl
    · exact h.running hstage rfl rfl (.inl rfl) rfl rfl
  | takeFileIo => exact h.running hstage rfl rfl (.inl rfl) rfl rfl
  | cancelFileIo op =>
    dsimp only [runSlice, AwaitSystem.cancelFileIo]
    split
    · exact h.running hstage rfl rfl (.inl rfl) rfl rfl
    · exact h
  | waitTimeout position => exact h.running hstage rfl rfl (.inl rfl) rfl rfl
  | clearReceiveTimeout => exact h.running hstage rfl rfl (.inl rfl) rfl rfl
  | handleSuspend => exact h.handleSuspend hstage
  | dirtyCall =>
    exact regular_parked (s := { s.suspend .dirtyCall false with ownOps := [] })
      (issued_suspend h.ids .dirtyCall false)
  | hookSuspend => exact regular_parked (issued_suspend h.ids .hook false)
  | wait => exact regular_wait h.ids
  | yield => exact regular_parked h.ids
  | exit => exact h.shrink rfl (.inl rfl) (.inl rfl) rfl rfl trivial

theorem Regular.note (h : s.Regular) {event : SuspensionEvent} (hevent : event.appliedId = none) :
    (s.note event).Regular := by
  refine ⟨?_, h.fits⟩
  have hids : (s.note event).callIds = s.callIds := by
    rw [callIds, appliedIds_note hevent]
    rfl
  rw [hids]
  exact h.ids

/-- A step of another party, which leaves the process alone. -/
theorem Regular.thread (h : s.Regular) (thread : AwaitThread) : (s.runThread thread).Regular := by
  cases thread with
  | checkMirror callId payload => exact Regular.ite ⟨h.ids, h.fits⟩ h
  | storeResult callId payload =>
    dsimp only [runThread, AwaitSystem.storeResult]
    split
    next pending _ =>
      have hnoted : (s.note (.replaced pending.callId callId)).Regular := h.note rfl
      exact Regular.ite h ⟨hnoted.ids, hnoted.fits⟩
    next => exact ⟨h.ids, h.fits⟩
  | recheckResult => exact Regular.ite h ⟨h.ids, h.fits⟩
  | insertResume resumeId => exact ⟨h.ids, h.fits⟩
  | recheckResume => exact Regular.ite h ⟨h.ids, h.fits⟩
  | insertFileIo op => exact ⟨h.ids, h.fits⟩
  | recheckFileIo => exact Regular.ite h ⟨h.ids, h.fits⟩
  | insertMark timer => exact ⟨h.ids, h.fits⟩
  | recheckMark => exact Regular.ite h ⟨h.ids, h.fits⟩

theorem Regular.drainFileIo (h : s.Regular) (op : ℕ) : (s.drainFileIo op).Regular := by
  refine Regular.ite ?_ h
  dsimp only
  split
  · exact Regular.ite ⟨h.ids, h.fits⟩ ⟨h.ids, h.fits⟩
  · exact Regular.ite ⟨h.ids, h.fits⟩ ⟨h.ids, h.fits⟩

theorem Regular.sliceStart (h : s.Regular) : s.sliceStart.Regular := by
  refine Regular.ite (h.shrink rfl (.inl rfl) (.inl rfl) ?_ rfl ?_) h
  · cases s.suspension with
    | none => rfl
    | some record => rfl
  · dsimp only [goto]
    cases hsuspension : s.suspension with
    | none => exact rfl
    | some record => trivial

theorem Regular.step (h : s.Regular) (action : AwaitAction) : (s.step action).Regular := by
  cases action with
  | sliceStart => exact h.sliceStart
  | gateStep =>
    dsimp only [AwaitSystem.step]
    split
    next stage hstage => exact h.gate hstage
    next => exact h
  | slice sliceStep =>
    dsimp only [AwaitSystem.step]
    split
    next hstage => exact h.slice hstage sliceStep
    next => exact h
  | advance thread =>
    have htaken : ({ s with threads := s.threads.erase thread }).Regular := ⟨h.ids, h.fits⟩
    exact Regular.ite (htaken.thread thread) h
  | publishSuspensionResult callId payload => exact ⟨h.ids, h.fits⟩
  | publishSuspensionResultCurrent kind payload =>
    dsimp only [AwaitSystem.step, publishSuspensionResultCurrent]
    split
    · exact Regular.ite ⟨h.ids, h.fits⟩ h
    · exact h
  | resumeProcess =>
    dsimp only [AwaitSystem.step, AwaitSystem.resumeProcess]
    split
    · exact Regular.ite ⟨h.ids, h.fits⟩ h
    · exact ⟨h.ids, h.fits⟩
  | drainFileIo op => exact h.drainFileIo op
  | fireTimer timer =>
    exact Regular.ite (Regular.ite ⟨h.ids, h.fits⟩ ⟨h.ids, h.fits⟩) h
  | terminate => exact ⟨h.ids, h.fits⟩

def Proper (s : AwaitSystem) : Prop := ∀ event ∈ s.log, event.Proper

theorem proper_of_log {t : AwaitSystem} (h : s.Proper) (hlog : t.log = s.log) : t.Proper := by
  intro event hevent
  rw [hlog] at hevent
  exact h event hevent

/-- Of a step that logs an event only that event matters. -/
theorem proper_of_note {t : AwaitSystem} {event : SuspensionEvent} (h : s.Proper)
    (hlog : t.log = s.log ++ [event]) : t.Proper ↔ event.Proper := by
  constructor
  · intro ht
    exact ht event (hlog ▸ List.mem_append_right _ (List.mem_singleton_self _))
  · intro hevent other hother
    rw [hlog] at hother
    rcases List.mem_append.mp hother with hold | hnew
    · exact h other hold
    · exact List.mem_singleton.mp hnew ▸ hevent

/-- Away from the two choices of the gate there is nothing to meet. -/
theorem meetsOwn_gateStep {stage : SliceStage} (hstage : s.stage = stage)
    (hfileIo : stage ≠ .gate .fileIo) (htimer : stage ≠ .gate .timer) : s.MeetsOwn .gateStep :=
  fun _ _ _ => ⟨fun heq => absurd (hstage.symm.trans heq) hfileIo,
    fun heq => absurd (hstage.symm.trans heq) htimer⟩

theorem proper_fileIo_iff (h : s.Proper) (hregular : s.Regular)
    (hstage : s.stage = .gate .fileIo) :
    (s.runGate .fileIo).Proper ↔ s.MeetsOwn .gateStep := by
  have hkind : s.Fits (.gate .fileIo) := hstage ▸ hregular.fits
  have htimer : s.stage ≠ .gate .timer := fun heq => by
    rw [hstage] at heq
    cases heq
  simp only [runGate]
  cases hsuspension : s.suspension with
  | none =>
    refine iff_of_true h fun record hrecord => ?_
    cases hsuspension.symm.trans hrecord
  | some record =>
    have hhost : record.kind = .hostAwait := hkind record hsuspension
    simp only [Option.elim_some, consumeFileIo]
    cases hop : s.fileIoResult with
    | none =>
      refine iff_of_true h fun other _ _ => ⟨fun _ op hsome => ?_, fun heq => absurd heq htimer⟩
      cases hop.symm.trans hsome
    | some op =>
      refine (proper_of_note h rfl).trans ?_
      constructor
      · intro hevent other hother hgated
        obtain rfl := Option.some.inj (hsuspension.symm.trans hother)
        refine ⟨fun _ op' hop' => ?_, fun heq => absurd heq htimer⟩
        obtain rfl := Option.some.inj (hop.symm.trans hop')
        exact of_decide_eq_true (hevent.2 hgated)
      · intro hmeets
        exact ⟨hhost, fun hgated =>
          decide_eq_true ((hmeets record hsuspension hgated).1 hstage op hop)⟩

theorem proper_timer_iff (h : s.Proper) (hregular : s.Regular) (hstage : s.stage = .gate .timer) :
    (s.runGate .timer).Proper ↔ s.MeetsOwn .gateStep := by
  have hkind : s.Fits (.gate .timer) := hstage ▸ hregular.fits
  have hfileIo : s.stage ≠ .gate .fileIo := fun heq => by
    rw [hstage] at heq
    cases heq
  have hlog : s.applyExpiredReceiveTimer.log = s.log := sameIds_applyExpiredReceiveTimer.log
  have happlied : s.applyExpiredReceiveTimer.Proper := proper_of_log h hlog
  simp only [runGate]
  cases hsuspension : s.suspension with
  | none =>
    refine iff_of_true h fun record hrecord => ?_
    cases hsuspension.symm.trans hrecord
  | some record =>
    have hhost : record.kind = .hostAwait := hkind record hsuspension
    simp only [Option.elim_some, consumeTimer]
    split
    next hfired =>
      refine (proper_of_note happlied rfl).trans ?_
      constructor
      · intro hevent other hother hgated
        obtain rfl := Option.some.inj (hsuspension.symm.trans hother)
        exact ⟨fun heq => absurd heq hfileIo, fun _ _ => hevent.2 hgated⟩
      · intro hmeets
        exact ⟨hhost, fun hgated => (hmeets record hsuspension hgated).2 hstage hfired⟩
    next hfired =>
      have hmeets : s.MeetsOwn .gateStep := fun _ _ _ =>
        ⟨fun heq => absurd heq hfileIo, fun _ hsome => absurd hsome hfired⟩
      split
      next hwake =>
        have hevent : (SuspensionEvent.ended record .message).Proper := ⟨hhost, hwake⟩
        exact iff_of_true ((proper_of_note happlied rfl).mpr hevent) hmeets
      next =>
        refine iff_of_true (proper_of_log happlied ?_) hmeets
        exact sameIds_registerReceiveTimer.log

theorem proper_takeResult (h : s.Proper) (record : SuspensionRecord) :
    (s.takeResult record).Proper := by
  refine proper_of_log h ?_
  unfold takeResult
  split
  · split <;> rfl
  · rfl

theorem proper_dropStale (h : s.Proper) (record : SuspensionRecord) :
    (s.dropStale record).Proper := by
  refine proper_of_log h ?_
  unfold dropStale
  cases record.kind with
  | hostAwait => rfl
  | dirtyCall => rfl
  | hook => rfl

theorem proper_consumeResume (h : s.Proper) {record : SuspensionRecord}
    (hkind : record.kind = .hook) : (s.consumeResume record).Proper := by
  have hevent : (SuspensionEvent.ended record .resume).Proper := hkind
  unfold consumeResume
  split
  · split
    · exact (proper_of_note h rfl).mpr hevent
    · exact proper_of_log h rfl
  · exact proper_of_log h rfl

theorem proper_ite {condition : Prop} [Decidable condition] {t u : AwaitSystem} (ht : t.Proper)
    (hu : u.Proper) : (if condition then t else u).Proper := by
  split
  · exact ht
  · exact hu

/-- Each stage of the gate but the two choices logs only what is proper. -/
theorem proper_gate (h : s.Proper) (hregular : s.Regular) {stage : GateStage}
    (hstage : s.stage = .gate stage) (hfileIo : stage ≠ .fileIo) (htimer : stage ≠ .timer) :
    (s.runGate stage).Proper := by
  have hfits : s.Fits (.gate stage) := hstage ▸ hregular.fits
  have helim : ∀ f : SuspensionRecord → AwaitSystem,
      (∀ record, s.suspension = some record → (f record).Proper) →
        (s.suspension.elim s f).Proper := by
    intro f hf
    cases hsuspension : s.suspension with
    | none => exact h
    | some record => exact hf record hsuspension
  cases stage with
  | fileIo => exact absurd rfl hfileIo
  | timer => exact absurd rfl htimer
  | plainTimer => exact proper_of_log h sameIds_applyExpiredReceiveTimer.log
  | takeResult => exact helim _ fun record _ => proper_takeResult h record
  | applyMirror record result => exact proper_ite (proper_of_log h rfl) (proper_of_log h rfl)
  | applyMarks record result =>
    obtain ⟨_, hid, hposition⟩ := hfits
    have hevent : (SuspensionEvent.applied record s.codePosition result.callId).Proper :=
      ⟨hid, hposition⟩
    exact (proper_of_note h rfl).mpr hevent
  | dirtySuspend suspend =>
    refine proper_ite (proper_of_log h ?_) (proper_of_log h rfl)
    exact sameIds_registerReceiveTimer.log.trans (sameIds_requestTimeout suspend.timeout).log
  | dropStale => exact helim _ fun record _ => proper_dropStale h record
  | resume => exact helim _ fun record hsome => proper_consumeResume h (hfits record hsome)
  | _ => exact proper_of_log h rfl

theorem proper_slice (h : s.Proper) (sliceStep : AwaitSliceStep) :
    (s.runSlice sliceStep).Proper := by
  cases sliceStep with
  | track op active => exact proper_ite (proper_of_log h rfl) (proper_of_log h rfl)
  | cancelFileIo op => exact proper_ite (proper_of_log h rfl) h
  | handleSuspend =>
    simp only [runSlice, handleSuspend]
    split
    next callId request _ =>
      refine proper_ite (proper_of_log h ?_) (proper_of_log h rfl)
      exact sameIds_registerReceiveTimer.log.trans (sameIds_requestTimeout request.timeout).log
    next => exact h
  | wait => exact proper_of_log h sameIds_registerReceiveTimer.log
  | _ => exact proper_of_log h rfl

/-- A stored result is not newer than the one that replaces it. -/
theorem proper_thread (h : s.Proper) (thread : AwaitThread) : (s.runThread thread).Proper := by
  cases thread with
  | checkMirror callId payload => exact proper_ite (proper_of_log h rfl) h
  | storeResult callId payload =>
    simp only [runThread, storeResult]
    split
    next pending _ =>
      split
      next => exact h
      next hnewer =>
        have hevent : (SuspensionEvent.replaced pending.callId callId).Proper :=
          Nat.le_of_not_lt hnewer
        exact (proper_of_note h rfl).mpr hevent
    next => exact proper_of_log h rfl
  | recheckResult => exact proper_ite h (proper_of_log h rfl)
  | recheckResume => exact proper_ite h (proper_of_log h rfl)
  | recheckFileIo => exact proper_ite h (proper_of_log h rfl)
  | recheckMark => exact proper_ite h (proper_of_log h rfl)
  | _ => exact proper_of_log h rfl

theorem proper_gateStep_iff (h : s.Proper) (hregular : s.Regular) :
    (s.step .gateStep).Proper ↔ s.MeetsOwn .gateStep := by
  simp only [step]
  split
  next stage hstage =>
    by_cases hfileIo : stage = .fileIo
    · subst hfileIo
      exact proper_fileIo_iff h hregular hstage
    by_cases htimer : stage = .timer
    · subst htimer
      exact proper_timer_iff h hregular hstage
    · refine iff_of_true (proper_gate h hregular hstage hfileIo htimer) ?_
      exact meetsOwn_gateStep hstage (fun heq => hfileIo (SliceStage.gate.inj heq))
        fun heq => htimer (SliceStage.gate.inj heq)
  next hstage =>
    exact iff_of_true h (meetsOwn_gateStep rfl (hstage .fileIo) (hstage .timer))

theorem proper_step_iff (h : s.Proper) (hregular : s.Regular) (action : AwaitAction) :
    (s.step action).Proper ↔ s.MeetsOwn action := by
  cases action with
  | gateStep => exact proper_gateStep_iff h hregular
  | sliceStart => exact iff_of_true (proper_ite (proper_of_log h rfl) h) trivial
  | slice sliceStep => exact iff_of_true (proper_ite (proper_slice h sliceStep) h) trivial
  | advance thread =>
    have htaken : ({ s with threads := s.threads.erase thread }).Proper := proper_of_log h rfl
    exact iff_of_true (proper_ite (proper_thread htaken thread) h) trivial
  | publishSuspensionResult callId payload => exact iff_of_true (proper_of_log h rfl) trivial
  | publishSuspensionResultCurrent kind payload =>
    refine iff_of_true ?_ trivial
    simp only [step, publishSuspensionResultCurrent]
    split
    · exact proper_ite (proper_of_log h rfl) h
    · exact h
  | resumeProcess =>
    refine iff_of_true ?_ trivial
    simp only [step, resumeProcess]
    split
    · exact proper_ite (proper_of_log h rfl) h
    · exact proper_of_log h rfl
  | drainFileIo op =>
    refine iff_of_true (proper_ite ?_ h) trivial
    dsimp only
    split
    · exact proper_ite (proper_of_log h rfl) (proper_of_log h rfl)
    · exact proper_ite (proper_of_log h rfl) (proper_of_log h rfl)
  | fireTimer timer =>
    refine iff_of_true (proper_ite (proper_ite ?_ ?_) h) trivial
    · exact proper_of_log h rfl
    · exact proper_of_log h rfl
  | terminate => exact iff_of_true (proper_of_log h rfl) trivial

theorem Regular.appliesOwn_iff (h : s.Regular) : s.AppliesOwn ↔ s.Proper := by
  refine ⟨AppliesOwn.proper, fun hproper => ⟨hproper, ?_, fun hstage => ?_⟩⟩
  · exact h.ids.nodup.of_append_right.of_append_right.of_append_right
  · exact (hstage ▸ h.fits : s.Fits .running)

/-- All along a run completions are applied to their own suspension, once, exactly if whatever the
gate finds of file operations and receive timers belongs to the host await that is parked. -/
theorem completions_applied_own_iff (actions : List AwaitAction) :
    (∀ n, ((actions.take n).foldl step new).AppliesOwn) ↔
      Runs.Meets step MeetsOwn new actions := by
  have hregular : ∀ n, ((actions.take n).foldl step new).Regular := fun n =>
    List.foldlRecOn (motive := Regular) (actions.take n) _ regular_new fun _ hs a _ => hs.step a
  rw [← Runs.forall_take_iff (I := fun s => Regular s ∧ Proper s) ?_ ?_]
  · exact forall_congr' fun n =>
      (hregular n).appliesOwn_iff.trans (and_iff_right (hregular n)).symm
  · rintro s a ⟨hs, hproper⟩
    exact (and_iff_right (hs.step a)).trans (proper_step_iff hproper hs a)
  · exact ⟨regular_new, fun _ hmem => by cases hmem⟩

/-- A receive that has timed out cancels its operation while the completion is on its way. The
completion then ends the next await of the process, which has submitted nothing. -/
theorem not_completions_applied_own :
    ¬ ([.sliceStart, .gateStep, .gateStep, .gateStep, .slice (.moveTo (some ⟨1, 5⟩)),
      .slice .enterNative, .slice (.requestSuspend ⟨true, false⟩), .slice .submit,
      .slice (.track 1 false), .slice .handleSuspend, .fireTimer 1, .advance (.insertMark 1),
      .drainFileIo 1, .sliceStart, .gateStep, .gateStep, .gateStep, .gateStep, .gateStep,
      .slice .enterNative, .slice (.cancelFileIo 1), .slice .takeFileIo,
      .slice .clearReceiveTimeout, .slice (.moveTo (some ⟨1, 9⟩)), .slice .enterNative,
      .slice (.requestSuspend ⟨false, false⟩), .slice .handleSuspend, .advance (.insertFileIo 1),
      .sliceStart, .gateStep, .gateStep, .gateStep].foldl step new).AppliesOwn := by
  intro h
  have hended := h.proper (.ended ⟨2, .hostAwait, some ⟨1, 9⟩, false⟩ (.fileIo false))
    (by decide +kernel)
  cases hended.2 rfl

end AwaitSystem
end Beamr.Scheduler
