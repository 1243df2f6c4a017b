import Beamr.Scheduler.ExitWatch

/-!
# Every exit is told once

What holds of a store with its callers and watchers in every run. A pid belongs to its first
terminal caller: the other callers of the pid are done when they leave the mutex, the record and
the event carry the reason of the first, and how far it is decides what a watch of the pid has
been told.
-/
namespace Beamr.Scheduler

variable {R O : Type}

/-! ## Watches -/

/-- The first caller has not yet removed the watch entry. -/
def Waiting (call : Option (TerminalCall R O)) : Prop :=
  ∀ c, call = some c → c.stage = .publish ∨ c.stage = .fire

/-- What a watch has been told, from how far the first caller of its pid is. -/
structure WatchOk (first : ℕ → Option (TerminalCall R O)) (watches : ℕ → List ℕ) (watchId : ℕ)
    (w : ExitWatch R) : Prop where
  armed : w.phase = .armed → w.received = [] ∧
    (first w.pid = none → watchId ∈ watches w.pid ∧ w.inbox = none)
  exited : ∀ reason, w.phase = .alreadyExited reason →
    ∃ c, first w.pid = some c ∧ c.reason = reason
  live : w.phase = .live →
    (Waiting (first w.pid) ∧ watchId ∈ watches w.pid ∧ w.notifications = []) ∨
      ∃ c ids, first w.pid = some c ∧ c.stage = .sending ids ∧
        w.notifications = if watchId ∈ ids then [] else [(w.pid, c.reason)]
  dropped : w.phase = .dropped → w.received = [] ∨
    ∃ c, first w.pid = some c ∧ w.received = [(w.pid, c.reason)]

structure Watching (first : ℕ → Option (TerminalCall R O)) (watches : ℕ → List ℕ)
    (handles : List (ExitWatch R)) : Prop where
  registered : ∀ pid, (watches pid).Nodup ∧
    ∀ id ∈ watches pid, ∃ w, handles[id]? = some w ∧ w.pid = pid
  sending : ∀ pid c ids, first pid = some c → c.stage = .sending ids →
    ids.Nodup ∧ ∀ id ∈ ids, ∃ w, handles[id]? = some w ∧ w.pid = pid
  each : ∀ id w, handles[id]? = some w → WatchOk first watches id w

variable {first : ℕ → Option (TerminalCall R O)} {watches watches' : ℕ → List ℕ}
  {handles : List (ExitWatch R)}

/-- The first caller of a pid comes or goes on: only what a live watch of the pid has been told
depends on how far it is. -/
theorem WatchOk.update {id pid : ℕ} {w : ExitWatch R} {c : TerminalCall R O}
    (h : WatchOk first watches id w) (hreason : ∀ d, first pid = some d → c.reason = d.reason)
    (hwatches : ∀ p ≠ pid, watches' p = watches p)
    (hlive : w.pid = pid → w.phase = .live →
      ((c.stage = .publish ∨ c.stage = .fire) ∧ id ∈ watches' w.pid ∧ w.notifications = []) ∨
        ∃ ids, c.stage = .sending ids ∧
          w.notifications = if id ∈ ids then [] else [(w.pid, c.reason)]) :
    WatchOk (Function.update first pid (some c)) watches' id w := by
  by_cases hp : w.pid = pid
  · subst hp
    refine ⟨?_, ?_, ?_, ?_⟩ <;> rw [Function.update_self]
    · intro hphase
      refine ⟨(h.armed hphase).1, fun hnone => ?_⟩
      cases hnone
    · intro reason hphase
      obtain ⟨d, hd, hdreason⟩ := h.exited reason hphase
      exact ⟨c, rfl, (hreason d hd).trans hdreason⟩
    · intro hphase
      rcases hlive rfl hphase with ⟨hstage, hmem, hnone⟩ | ⟨ids, hids, hnotes⟩
      · refine .inl ⟨?_, hmem, hnone⟩
        intro d hd
        cases hd
        exact hstage
      · exact .inr ⟨c, ids, rfl, hids, hnotes⟩
    · intro hphase
      rcases h.dropped hphase with hnone | ⟨d, hd, hreceived⟩
      · exact .inl hnone
      · exact .inr ⟨c, rfl, by rw [hreceived, hreason d hd]⟩
  · refine ⟨?_, ?_, ?_, ?_⟩ <;> rw [Function.update_of_ne hp]
    · rw [hwatches _ hp]
      exact h.armed
    · exact h.exited
    · rw [hwatches _ hp]
      exact h.live
    · exact h.dropped

theorem getElem?_set_of_some {id : ℕ} {w : ExitWatch R} (hw : handles[id]? = some w)
    (w' : ExitWatch R) (i : ℕ) :
    (handles.set id w')[i]? = if id = i then some w' else handles[i]? := by
  have hlt : id < handles.length := (List.getElem?_eq_some_iff.mp hw).1
  rw [List.getElem?_set, if_pos hlt]

/-- A watch of the same pid at the same id. -/
theorem exists_set {id : ℕ} {w w' : ExitWatch R} (hw : handles[id]? = some w)
    (hpid : w'.pid = w.pid) {i pid : ℕ} (h : ∃ x, handles[i]? = some x ∧ x.pid = pid) :
    ∃ x, (handles.set id w')[i]? = some x ∧ x.pid = pid := by
  obtain ⟨x, hx, hxpid⟩ := h
  rw [getElem?_set_of_some hw]
  split
  next heq =>
    subst heq
    rw [hw] at hx
    cases hx
    exact ⟨w', rfl, hpid.trans hxpid⟩
  next => exact ⟨x, hx, hxpid⟩

namespace Watching

theorem start : Watching (fun _ => none : ℕ → Option (TerminalCall R O)) (fun _ => []) [] where
  registered _ := ⟨List.nodup_nil, List.forall_mem_nil _⟩
  sending _ _ _ h := by cases h
  each _ _ h := by simp at h

/-- The first caller of a pid comes, or goes from its event to the watches. -/
theorem restage (h : Watching first watches handles) {pid : ℕ} (hwaiting : Waiting (first pid))
    {c : TerminalCall R O} (hc : c.stage = .publish ∨ c.stage = .fire)
    (hreason : ∀ d, first pid = some d → c.reason = d.reason) :
    Watching (Function.update first pid (some c)) watches handles where
  registered := h.registered
  sending p d ids hd hids := by
    by_cases hp : p = pid
    · subst hp
      rw [Function.update_self] at hd
      cases hd
      rw [hids] at hc
      rcases hc with hc | hc <;> cases hc
    · rw [Function.update_of_ne hp] at hd
      exact h.sending p d ids hd hids
  each id w hw := by
    refine (h.each id w hw).update hreason (fun _ _ => rfl) fun hp hphase => ?_
    subst hp
    rcases (h.each id w hw).live hphase with ⟨-, hmem, hnone⟩ | ⟨d, ids, hd, hids, -⟩
    · exact .inl ⟨hc, hmem, hnone⟩
    · rcases hwaiting d hd with hstage | hstage <;> rw [hids] at hstage <;> cases hstage

/-- The watch entry of a pid is removed, and its slots are sent to from then on. -/
theorem fire (h : Watching first watches handles) {pid : ℕ} {c c' : TerminalCall R O}
    (hc : first pid = some c) (hstage : c.stage = .fire) (hc' : c'.stage = .sending (watches pid))
    (hreason : c'.reason = c.reason) :
    Watching (Function.update first pid (some c')) (Function.update watches pid []) handles where
  registered p := by
    by_cases hp : p = pid
    · subst hp
      rw [Function.update_self]
      exact ⟨List.nodup_nil, List.forall_mem_nil _⟩
    · rw [Function.update_of_ne hp]
      exact h.registered p
  sending p d ids hd hids := by
    by_cases hp : p = pid
    · subst hp
      rw [Function.update_self] at hd
      cases hd
      rw [hc'] at hids
      cases hids
      exact h.registered p
    · rw [Function.update_of_ne hp] at hd
      exact h.sending p d ids hd hids
  each id w hw := by
    refine (h.each id w hw).update ?_ (fun p hp => Function.update_of_ne hp ..) fun hp hphase => ?_
    · intro d hd
      rw [hc] at hd
      cases hd
      exact hreason
    · subst hp
      rcases (h.each id w hw).live hphase with ⟨-, hmem, hnone⟩ | ⟨d, ids, hd, hids, -⟩
      · exact .inr ⟨_, hc', by rw [if_pos hmem, hnone]⟩
      · rw [hc] at hd
        cases hd
        rw [hstage] at hids
        cases hids

theorem setHandle (h : Watching first watches handles) {id : ℕ} {w w' : ExitWatch R}
    (hw : handles[id]? = some w) (hpid : w'.pid = w.pid) (hw' : WatchOk first watches id w') :
    Watching first watches (handles.set id w') where
  registered pid := ⟨(h.registered pid).1, fun i hi =>
    exists_set hw hpid ((h.registered pid).2 i hi)⟩
  sending pid c ids hc hids := ⟨(h.sending pid c ids hc hids).1, fun i hi =>
    exists_set hw hpid ((h.sending pid c ids hc hids).2 i hi)⟩
  each i x hx := by
    rw [getElem?_set_of_some hw] at hx
    split at hx
    next heq =>
      subst heq
      cases hx
      exact hw'
    next => exact h.each i x hx

theorem trySend_pid (w : ExitWatch R) (pid : ℕ) (reason : R) :
    (w.trySend pid reason).pid = w.pid := by
  rw [ExitWatch.trySend]
  split <;> rfl

theorem trySend_phase (w : ExitWatch R) (pid : ℕ) (reason : R) :
    (w.trySend pid reason).phase = w.phase := by
  rw [ExitWatch.trySend]
  split <;> simp_all

theorem trySend_received (w : ExitWatch R) (pid : ℕ) (reason : R) :
    (w.trySend pid reason).received = w.received := by
  rw [ExitWatch.trySend]
  split <;> rfl

/-- The next slot takes the notification; the others are as they were. -/
theorem send (h : Watching first watches handles) {pid watchId : ℕ} {rest : List ℕ}
    {w : ExitWatch R} {c : TerminalCall R O} (c' : TerminalCall R O) (hc : first pid = some c)
    (hstage : c.stage = .sending (watchId :: rest)) (hc' : c'.stage = .sending rest)
    (hreason : c'.reason = c.reason) (hw : handles[watchId]? = some w) :
    Watching (Function.update first pid (some c')) watches
      (handles.set watchId (w.trySend pid c.reason)) := by
  obtain ⟨hnodup, hids⟩ := h.sending pid c _ hc hstage
  obtain ⟨hnotin, hrest⟩ := List.nodup_cons.mp hnodup
  have hreason' : ∀ d, first pid = some d → c'.reason = d.reason := by
    intro d hd
    rw [hc] at hd
    cases hd
    exact hreason
  have hwpid : w.pid = pid := by
    obtain ⟨x, hx, hxpid⟩ := hids watchId (List.mem_cons_self ..)
    rw [hw] at hx
    cases hx
    exact hxpid
  -- first the call goes on, then the slot is written
  have hlive : ∀ i x, handles[i]? = some x → x.pid = pid → x.phase = .live →
      x.notifications = if i ∈ watchId :: rest then [] else [(pid, c.reason)] := by
    intro i x hx hp hphase
    subst hp
    rcases (h.each i x hx).live hphase with ⟨hwaiting, -⟩ | ⟨d, ids, hd, hids, hnotes⟩
    · rcases hwaiting c hc with hs | hs <;> rw [hstage] at hs <;> cases hs
    · rw [hc] at hd
      cases hd
      rw [hstage] at hids
      cases hids
      exact hnotes
  refine ⟨?_, ?_, ?_⟩
  · exact fun p => ⟨(h.registered p).1, fun i hi =>
      exists_set hw (trySend_pid ..) ((h.registered p).2 i hi)⟩
  · intro p d ids hd hdids
    by_cases hp : p = pid
    · subst hp
      rw [Function.update_self] at hd
      cases hd
      rw [hc'] at hdids
      cases hdids
      exact ⟨hrest, fun i hi => exists_set hw (trySend_pid ..) (hids i (List.mem_cons_of_mem _ hi))⟩
    · rw [Function.update_of_ne hp] at hd
      exact ⟨(h.sending p d ids hd hdids).1, fun i hi =>
        exists_set hw (trySend_pid ..) ((h.sending p d ids hd hdids).2 i hi)⟩
  · intro i x hx
    rw [getElem?_set_of_some hw] at hx
    split at hx
    next heq =>
      subst heq
      cases hx
      have hold := h.each watchId w hw
      refine ⟨?_, ?_, ?_, ?_⟩ <;>
        simp only [trySend_pid, trySend_phase, trySend_received, hwpid, Function.update_self]
      · intro hphase
        refine ⟨(hold.armed hphase).1, fun hnone => ?_⟩
        cases hnone
      · intro reason hphase
        obtain ⟨d, hd, hdreason⟩ := hold.exited reason hphase
        rw [hwpid] at hd
        exact ⟨c', rfl, (hreason' d hd).trans hdreason⟩
      · intro hphase
        have hempty := hlive watchId w hw hwpid hphase
        rw [if_pos (List.mem_cons_self ..), ExitWatch.notifications, hphase] at hempty
        obtain ⟨hreceived, hinbox⟩ := List.append_eq_nil_iff.mp hempty
        have hinbox : w.inbox = none := by simpa using hinbox
        refine .inr ⟨c', rest, rfl, hc', ?_⟩
        rw [if_neg hnotin, ExitWatch.notifications, trySend_phase, hphase, ExitWatch.trySend,
          hphase, hinbox, hreason]
        dsimp only
        rw [hreceived]
        rfl
      · intro hphase
        rcases hold.dropped hphase with hnone | ⟨d, hd, hreceived⟩
        · exact .inl hnone
        · rw [hwpid] at hd hreceived
          exact .inr ⟨c', rfl, by rw [hreceived, hreason' d hd]⟩
    next hne =>
      refine (h.each i x hx).update hreason' (fun _ _ => rfl) fun hp hphase => .inr ⟨rest, hc', ?_⟩
      rw [hlive i x hx hp hphase, hp, hreason]
      simp [Ne.symm hne]

/-- A new watch goes to the end of its pid's entry. -/
theorem register (h : Watching first watches handles) (pid : ℕ) :
    Watching first (Function.update watches pid (watches pid ++ [handles.length]))
      (handles ++ [⟨pid, .armed, none, []⟩]) := by
  have hold : ∀ (i : ℕ) x, handles[i]? = some x →
      (handles ++ [(⟨pid, .armed, none, []⟩ : ExitWatch R)])[i]? = some x := by
    intro i x hx
    rw [List.getElem?_append_left (List.getElem?_eq_some_iff.mp hx).1, hx]
  have hlast : (handles ++ [(⟨pid, .armed, none, []⟩ : ExitWatch R)])[handles.length]? =
      some ⟨pid, .armed, none, []⟩ := by simp
  have hmem : ∀ p i, i ∈ watches p →
      i ∈ Function.update watches pid (watches pid ++ [handles.length]) p := by
    intro p i hi
    by_cases hp : p = pid
    · subst hp
      rw [Function.update_self]
      exact List.mem_append_left _ hi
    · rw [Function.update_of_ne hp]
      exact hi
  refine ⟨fun p => ?_, fun p c ids hc hids => ?_, fun i x hx => ?_⟩
  · obtain ⟨hnodup, hids⟩ := h.registered p
    by_cases hp : p = pid
    · subst hp
      rw [Function.update_self]
      refine ⟨?_, fun i hi => ?_⟩
      · rw [List.nodup_append]
        refine ⟨hnodup, List.nodup_singleton _, ?_⟩
        intro a ha b hb hab
        rw [List.mem_singleton] at hb
        subst hab hb
        obtain ⟨x, hx, -⟩ := hids _ ha
        exact Nat.lt_irrefl _ (List.getElem?_eq_some_iff.mp hx).1
      · rcases List.mem_append.mp hi with hi | hi
        · obtain ⟨x, hx, hxpid⟩ := hids i hi
          exact ⟨x, hold i x hx, hxpid⟩
        · rw [List.mem_singleton.mp hi]
          exact ⟨_, hlast, rfl⟩
    · rw [Function.update_of_ne hp]
      refine ⟨hnodup, fun i hi => ?_⟩
      obtain ⟨x, hx, hxpid⟩ := hids i hi
      exact ⟨x, hold i x hx, hxpid⟩
  · obtain ⟨hnodup, hall⟩ := h.sending p c ids hc hids
    refine ⟨hnodup, fun i hi => ?_⟩
    obtain ⟨x, hx, hxpid⟩ := hall i hi
    exact ⟨x, hold i x hx, hxpid⟩
  · rcases Nat.lt_or_ge i handles.length with hi | hi
    · rw [List.getElem?_append_left hi] at hx
      obtain ⟨harmed, hexited, hlive, hdropped⟩ := h.each i x hx
      refine ⟨fun hphase => ?_, hexited, fun hphase => ?_, hdropped⟩
      · obtain ⟨hreceived, hslot⟩ := harmed hphase
        exact ⟨hreceived, fun hnone => ⟨hmem _ _ (hslot hnone).1, (hslot hnone).2⟩⟩
      · rcases hlive hphase with ⟨hwaiting, hin, hnotes⟩ | htold
        · exact .inl ⟨hwaiting, hmem _ _ hin, hnotes⟩
        · exact .inr htold
    · have hi : i = handles.length := by
        have hlt := (List.getElem?_eq_some_iff.mp hx).1
        simp only [List.length_append, List.length_singleton] at hlt
        omega
      subst hi
      rw [hlast] at hx
      cases hx
      refine ⟨fun _ => ⟨rfl, fun _ => ⟨?_, rfl⟩⟩, ?_, ?_, ?_⟩
      · rw [Function.update_self]
        exact List.mem_append_right _ (List.mem_singleton_self _)
      all_goals
        intros
        simp_all

/-- The check after arming: a record answers, and without one the armed slot is handed out. -/
theorem check (h : Watching first watches handles) {id : ℕ} {w : ExitWatch R}
    (hw : handles[id]? = some w) (harmed : w.phase = .armed) :
    Watching first watches (handles.set id { w with
      phase := match (first w.pid).map (·.reason) with
        | some reason => .alreadyExited reason
        | none => .live }) := by
  have hold := h.each id w hw
  obtain ⟨hreceived, hslot⟩ := hold.armed harmed
  refine h.setHandle hw rfl ?_
  cases hfirst : first w.pid with
  | some c =>
    refine ⟨fun hphase => ?_, fun reason hphase => ?_, fun hphase => ?_, fun hphase => ?_⟩
    · cases hphase
    · cases hphase
      exact ⟨c, hfirst, rfl⟩
    · cases hphase
    · cases hphase
  | none =>
    obtain ⟨hmem, hinbox⟩ := hslot hfirst
    refine ⟨fun hphase => ?_, fun reason hphase => ?_, fun hphase => .inl ⟨?_, hmem, ?_⟩,
      fun hphase => ?_⟩
    · cases hphase
    · cases hphase
    · intro c hc
      dsimp only at hc
      rw [hfirst] at hc
      cases hc
    · simp [ExitWatch.notifications, hreceived, hinbox]
    · cases hphase

theorem recv (h : Watching first watches handles) {id : ℕ} {w : ExitWatch R}
    (hw : handles[id]? = some w) (hphase : w.phase = .live) {notification : ℕ × R}
    (hinbox : w.inbox = some notification) :
    Watching first watches (handles.set id
      { w with inbox := none, received := w.received ++ [notification] }) := by
  have hold := h.each id w hw
  refine h.setHandle hw rfl ⟨?_, ?_, ?_, ?_⟩
  · intro harmed
    rw [hphase] at harmed
    cases harmed
  · exact hold.exited
  · intro _
    have hnotes : ExitWatch.notifications { w with
        inbox := none, received := w.received ++ [notification] } = w.notifications := by
      simp [ExitWatch.notifications, hphase, hinbox]
    rw [hnotes]
    exact hold.live hphase
  · intro hdropped
    rw [hphase] at hdropped
    cases hdropped

/-- What the owner of a live watch has received is at most what it was told. -/
theorem dropLive (h : Watching first watches handles) {id : ℕ} {w : ExitWatch R}
    (hw : handles[id]? = some w) (hphase : w.phase = .live) :
    Watching first watches (handles.set id { w with phase := .dropped }) := by
  have hold := h.each id w hw
  refine h.setHandle hw rfl ⟨fun hp => ?_, fun _ hp => ?_, fun hp => ?_, fun _ => ?_⟩
  · cases hp
  · cases hp
  · cases hp
  · have hnotes : w.notifications = w.received ++ w.inbox.toList := by
      rw [ExitWatch.notifications, hphase]
    rcases hold.live hphase with ⟨-, -, hnone⟩ | ⟨c, ids, hc, -, htold⟩
    · rw [hnotes] at hnone
      exact .inl (List.append_eq_nil_iff.mp hnone).1
    · rw [hnotes] at htold
      cases hreceived : w.received with
      | nil => exact .inl rfl
      | cons first rest =>
        rw [hreceived] at htold
        split at htold
        · cases htold
        · obtain ⟨hhead, hrest⟩ := List.cons.inj htold
          rw [hhead, (List.append_eq_nil_iff.mp hrest).1]
          exact .inr ⟨c, hc, rfl⟩

/-- Removing the slot of a watch that is neither armed nor live. -/
theorem deregister (h : Watching first watches handles) {id pid : ℕ} {w : ExitWatch R}
    (hw : handles[id]? = some w) (harmed : w.phase ≠ .armed) (hlive : w.phase ≠ .live) :
    Watching first (Function.update watches pid ((watches pid).filter (· != id))) handles := by
  have hmem : ∀ p i, i ∈ Function.update watches pid ((watches pid).filter (· != id)) p ↔
      i ∈ watches p ∧ (p = pid → i ≠ id) := by
    intro p i
    by_cases hp : p = pid
    · subst hp
      simp
    · simp [hp]
  refine ⟨fun p => ⟨?_, fun i hi => (h.registered p).2 i ((hmem p i).mp hi).1⟩, h.sending,
    fun i x hx => ?_⟩
  · by_cases hp : p = pid
    · subst hp
      rw [Function.update_self]
      exact (h.registered p).1.filter _
    · rw [Function.update_of_ne hp]
      exact (h.registered p).1
  · obtain ⟨hxarmed, hxexited, hxlive, hxdropped⟩ := h.each i x hx
    have hne : x.phase = .armed ∨ x.phase = .live → i ≠ id := by
      rintro hphase rfl
      rw [hw] at hx
      cases hx
      rcases hphase with hphase | hphase
      · exact harmed hphase
      · exact hlive hphase
    refine ⟨fun hphase => ?_, hxexited, fun hphase => ?_, hxdropped⟩
    · obtain ⟨hreceived, hslot⟩ := hxarmed hphase
      exact ⟨hreceived, fun hnone => ⟨(hmem _ _).mpr ⟨(hslot hnone).1, fun _ => hne (.inl hphase)⟩,
        (hslot hnone).2⟩⟩
    · rcases hxlive hphase with ⟨hwaiting, hin, hnotes⟩ | htold
      · exact .inl ⟨hwaiting, (hmem _ _).mpr ⟨hin, fun _ => hne (.inr hphase)⟩, hnotes⟩
      · exact .inr htold

end Watching

/-! ## Callers -/

/-- Of the callers of one pid only the first goes on after the mutex. -/
structure Callers (calls : List (TerminalCall R O)) : Prop where
  later : calls.Pairwise fun c d => c.pid = d.pid → d.stage = .skipped
  first : ∀ pid c, calls.find? (·.pid == pid) = some c → c.stage ≠ .skipped

namespace Callers

variable {calls : List (TerminalCall R O)}

theorem find?_append_singleton (c : TerminalCall R O) (pid : ℕ) :
    (calls ++ [c]).find? (·.pid == pid) =
      (calls.find? (·.pid == pid)).or (if c.pid = pid then some c else none) := by
  rw [List.find?_append]
  congr 1
  by_cases hp : c.pid = pid
  · simp [hp]
  · simp [hp]

theorem append (h : Callers calls) {c : TerminalCall R O}
    (hstage : c.stage = .skipped ↔ (calls.find? (·.pid == c.pid)).isSome) :
    Callers (calls ++ [c]) where
  later := by
    refine List.pairwise_append.mpr ⟨h.later, List.pairwise_singleton _ _, ?_⟩
    intro d hd e he hpid
    rw [List.mem_singleton] at he
    subst he
    rw [hstage, List.find?_isSome]
    exact ⟨d, hd, by simpa using hpid⟩
  first pid d hd := by
    rw [find?_append_singleton] at hd
    cases hfound : calls.find? (·.pid == pid) with
    | some first =>
      rw [hfound] at hd
      cases hd
      exact h.first pid _ hfound
    | none =>
      rw [hfound, Option.none_or] at hd
      split at hd
      next hpid =>
        cases hd
        subst hpid
        rw [ne_eq, hstage, hfound]
        simp
      next => cases hd

/-- A caller that goes on is the first of its pid, and stays it. -/
theorem goesOn (h : Callers calls) {i : ℕ} {c : TerminalCall R O} (hc : calls[i]? = some c)
    (hstage : c.stage ≠ .skipped) (stage : Stage) (hnext : stage ≠ .skipped) :
    calls.find? (·.pid == c.pid) = some c ∧ Callers (calls.set i { c with stage }) ∧
      (fun pid => (calls.set i { c with stage }).find? (·.pid == pid)) =
        Function.update (fun pid => calls.find? (·.pid == pid)) c.pid (some { c with stage }) := by
  obtain ⟨hi, hget⟩ := List.getElem?_eq_some_iff.mp hc
  obtain ⟨before, after, hcalls, -, hset⟩ :=
    (List.exists_of_set hi : ∃ before after, calls = before ++ calls[i] :: after ∧
      before.length = i ∧ calls.set i { c with stage } = before ++ { c with stage } :: after)
  rw [hget] at hcalls
  rw [hset]
  have hlater := h.later
  rw [hcalls] at hlater
  obtain ⟨hbefore, hafter, hcross⟩ := List.pairwise_append.mp hlater
  have hnot : ∀ d ∈ before, d.pid ≠ c.pid := fun d hd hpid =>
    hstage (hcross d hd c (List.mem_cons_self ..) hpid)
  have hnone : before.find? (·.pid == c.pid) = none := by
    rw [List.find?_eq_none]
    intro d hd
    simpa using hnot d hd
  have hfind : ∀ x : TerminalCall R O, x.pid = c.pid → ∀ pid,
      (before ++ x :: after).find? (·.pid == pid) =
        if pid = c.pid then some x else (before ++ c :: after).find? (·.pid == pid) := by
    intro x hx pid
    rw [List.find?_append, List.find?_append]
    split
    next hpid =>
      subst hpid
      rw [hnone, List.find?_cons_of_pos (by simp [hx])]
      rfl
    next hpid =>
      rw [List.find?_cons_of_neg (by simp [hx, Ne.symm hpid]),
        List.find?_cons_of_neg (by simp [Ne.symm hpid])]
  have hfirst : ∀ pid, (before ++ { c with stage } :: after).find? (·.pid == pid) =
      Function.update (fun pid => calls.find? (·.pid == pid)) c.pid (some { c with stage }) pid := by
    intro pid
    rw [hfind { c with stage } rfl, Function.update_apply, hcalls]
  refine ⟨?_, ⟨?_, ?_⟩, funext hfirst⟩
  · rw [hcalls, hfind c rfl, if_pos rfl]
  · refine List.pairwise_append.mpr ⟨hbefore, List.pairwise_cons.mpr ?_, ?_⟩
    · obtain ⟨hc', hrest⟩ := List.pairwise_cons.mp hafter
      exact ⟨hc', hrest⟩
    · intro d hd e he hpid
      rcases List.mem_cons.mp he with rfl | he
      · exact absurd hpid (hnot d hd)
      · exact hcross d hd e (List.mem_cons_of_mem _ he) hpid
  · intro pid d hd
    rw [hfirst, Function.update_apply] at hd
    split at hd
    · cases hd
      exact hnext
    · exact h.first pid d hd

end Callers

/-! ## The whole store -/

/-- What was published for a pid. -/
def publishedFor : Option (TerminalCall R O) → List (ℕ × R)
  | none => []
  | some c => if c.stage = .publish then [] else [(c.pid, c.reason)]

structure Told (s : ExitSystem R O) : Prop where
  inOrder : s.store.InOrder
  queue : s.inserted = s.evicted ++ s.store.order
  full : s.evicted ≠ [] → s.store.order.length = s.store.capacity
  known : ∀ pid ∈ s.store.order, (s.first pid).isSome
  record : ∀ pid, s.store.outcomes pid = (s.first pid).map fun c =>
    ⟨c.reason, if pid ∈ s.taken.map (·.1) then none else some c.outcome⟩
  taken : ∀ pid, s.taken.filter (·.1 == pid) = [] ∨ ∃ c, s.first pid = some c ∧
    s.taken.filter (·.1 == pid) = [(pid, c.reason, c.outcome)]
  published : ∀ pid, s.published.filter (·.1 == pid) = publishedFor (s.first pid)
  callers : Callers s.calls
  watching : Watching s.first s.watches s.handles

theorem filter_taken_eq_nil {taken : List (ℕ × R × O)} {pid : ℕ} :
    taken.filter (·.1 == pid) = [] ↔ pid ∉ taken.map (·.1) := by
  rw [List.filter_eq_nil_iff, List.mem_map]
  constructor
  · rintro h ⟨e, he, hpid⟩
    exact h e he (by simpa using hpid)
  · intro h e he hpid
    exact h ⟨e, he, by simpa using hpid⟩

namespace Told

variable {s : ExitSystem R O}

theorem start (capacity : ℕ) : Told (ExitSystem.start R O capacity) where
  inOrder := BoundedTombstones.inOrder_withCapacity capacity
  queue := rfl
  full h := absurd rfl h
  known pid h := by cases h
  record _ := rfl
  taken _ := .inl rfl
  published _ := rfl
  callers := ⟨List.Pairwise.nil, fun _ _ h => by cases h⟩
  watching := Watching.start

theorem pid_of_first {pid : ℕ} {c : TerminalCall R O} (h : s.first pid = some c) : c.pid = pid := by
  have hfound := List.find?_some h
  simpa using hfound

/-- The order of the tombstones and what left it, after one more insertion. -/
theorem insertOutcome_queue (h : Told s) (pid : ℕ) (reason : R) (outcome : O) :
    (s.insertOutcome pid reason outcome).inserted =
        (s.insertOutcome pid reason outcome).evicted ++
          (s.insertOutcome pid reason outcome).store.order ∧
      ((s.insertOutcome pid reason outcome).evicted ≠ [] →
        (s.insertOutcome pid reason outcome).store.order.length =
          (s.insertOutcome pid reason outcome).store.capacity) ∧
      ∀ p ∈ (s.insertOutcome pid reason outcome).store.order, p ∈ s.store.order ∨ p = pid := by
  obtain ⟨hinOrder, hcapacity, hqueue⟩ := h.inOrder.insertOutcome pid reason outcome
  simp only [ExitSystem.insertOutcome]
  rcases hqueue with ⟨hmem, hevicted, horder⟩ | ⟨hmem, horder, hfull⟩
  · rw [if_pos hmem, hevicted, horder, hcapacity, Option.toList_none, List.append_nil]
    exact ⟨h.queue, h.full, fun p hp => .inl hp⟩
  · refine ⟨?_, fun hne => ?_, fun p hp => ?_⟩
    · rw [if_neg hmem, h.queue, List.append_assoc, horder, List.append_assoc]
    · rw [hcapacity]
      cases hevicted : (s.store.insertOutcome pid reason outcome).evicted with
      | some oldest => exact hfull (by rw [hevicted]; simp)
      | none =>
        -- the map was full before, so one more would not fit
        rw [hevicted, Option.toList_none, List.append_nil] at hne
        have hbefore := h.full hne
        have hroom := hinOrder.room
        rw [hevicted, Option.toList_none, List.nil_append] at horder
        rw [← horder, hcapacity, List.length_append, List.length_singleton] at hroom
        omega
    · have hin : p ∈ s.store.order ++ [pid] := by
        rw [horder]
        exact List.mem_append_right _ hp
      simpa using hin

/-- Only the first caller of a pid is recorded, and its event is still to come. -/
theorem insertOutcome (h : Told s) (pid : ℕ) (reason : R) (outcome : O) :
    Told (s.insertOutcome pid reason outcome) := by
  obtain ⟨hinOrder, -, -⟩ := h.inOrder.insertOutcome pid reason outcome
  obtain ⟨hqueue, hfull, horder⟩ := h.insertOutcome_queue pid reason outcome
  have hknown : ∀ p ∈ s.store.order, (s.store.outcomes p).isSome := by
    intro p hp
    rw [h.record, Option.isSome_map]
    exact h.known p hp
  obtain ⟨hpublish, houtcomes⟩ := h.inOrder.insertOutcome_outcomes hknown pid reason outcome
  have hnew : (s.store.outcomes pid).isNone = (s.first pid).isNone := by
    rw [h.record, Option.isNone_map]
  rw [hnew] at hpublish houtcomes
  have hfirst : ∀ p, (s.insertOutcome pid reason outcome).first p = (s.first p).or
      (if pid = p then some ⟨pid, reason, outcome,
        if (s.first pid).isNone then .publish else .skipped⟩ else none) := by
    intro p
    rw [ExitSystem.first, ExitSystem.insertOutcome, hpublish]
    exact Callers.find?_append_singleton _ p
  have hcallers : Callers (s.insertOutcome pid reason outcome).calls := by
    rw [ExitSystem.insertOutcome, hpublish]
    refine h.callers.append ?_
    rw [← ExitSystem.first]
    cases s.first pid <;> simp
  cases hfound : s.first pid with
  | some c =>
    have hsame : (s.insertOutcome pid reason outcome).first = s.first := by
      funext p
      rw [hfirst]
      by_cases hp : pid = p
      · subst hp
        rw [hfound]
        rfl
      · rw [if_neg hp, Option.or_none]
    have hkept : (s.insertOutcome pid reason outcome).store.outcomes = s.store.outcomes := by
      rw [hfound] at houtcomes
      exact houtcomes
    refine ⟨hinOrder, hqueue, hfull, fun p hp => ?_, fun p => ?_, fun p => ?_, fun p => ?_,
      hcallers, ?_⟩ <;> rw [hsame]
    · rcases horder p hp with hp | rfl
      · exact h.known p hp
      · rw [hfound]
        rfl
    · rw [hkept]
      exact h.record p
    · exact h.taken p
    · exact h.published p
    · exact h.watching
  | none =>
    have hupdate : (s.insertOutcome pid reason outcome).first =
        Function.update s.first pid (some ⟨pid, reason, outcome, .publish⟩) := by
      funext p
      rw [hfirst, hfound]
      by_cases hp : pid = p
      · subst hp
        rw [if_pos rfl, hfound, Function.update_self]
        rfl
      · rw [if_neg hp, Option.or_none, Function.update_of_ne (Ne.symm hp)]
    have hmade : (s.insertOutcome pid reason outcome).store.outcomes =
        Function.update s.store.outcomes pid (some ⟨reason, some outcome⟩) := by
      rw [hfound] at houtcomes
      exact houtcomes
    have huntaken : s.taken.filter (·.1 == pid) = [] := by
      rcases h.taken pid with hnone | ⟨c, hc, -⟩
      · exact hnone
      · rw [hfound] at hc
        cases hc
    refine ⟨hinOrder, hqueue, hfull, fun p hp => ?_, fun p => ?_, fun p => ?_, fun p => ?_,
      hcallers, ?_⟩ <;> rw [hupdate]
    · by_cases hpid : p = pid
      · rw [hpid, Function.update_self]
        rfl
      · rw [Function.update_of_ne hpid]
        exact h.known p ((horder p hp).resolve_right hpid)
    · rw [hmade]
      by_cases hpid : p = pid
      · subst hpid
        rw [Function.update_self, Function.update_self, Option.map_some]
        have hnot : p ∉ s.taken.map (·.1) := filter_taken_eq_nil.mp huntaken
        have htaken : (s.insertOutcome p reason outcome).taken = s.taken := rfl
        rw [htaken, if_neg hnot]
      · rw [Function.update_of_ne hpid, Function.update_of_ne hpid]
        exact h.record p
    · by_cases hpid : p = pid
      · subst hpid
        exact .inl huntaken
      · rw [Function.update_of_ne hpid]
        exact h.taken p
    · by_cases hpid : p = pid
      · subst hpid
        rw [Function.update_self]
        have hnone := h.published p
        rw [hfound] at hnone
        exact hnone
      · rw [Function.update_of_ne hpid]
        exact h.published p
    · refine h.watching.restage ?_ (.inl rfl) ?_
      · intro d hd
        rw [hfound] at hd
        cases hd
      · intro d hd
        rw [hfound] at hd
        cases hd

/-- A first caller goes on: the record and the tombstones stay. -/
theorem goesOn (h : Told s) {i : ℕ} {c : TerminalCall R O} (hc : s.calls[i]? = some c)
    (hstage : c.stage ≠ .skipped) {stage : Stage} (hnext : stage ≠ .skipped)
    {s' : ExitSystem R O} (hcalls : s'.calls = s.calls.set i { c with stage })
    (hstore : s'.store = s.store) (htaken : s'.taken = s.taken)
    (hinserted : s'.inserted = s.inserted) (hevicted : s'.evicted = s.evicted)
    (hpublished : ∀ pid, s'.published.filter (·.1 == pid) =
      publishedFor (Function.update s.first c.pid (some { c with stage }) pid))
    (hwatching : Watching (Function.update s.first c.pid (some { c with stage })) s'.watches
      s'.handles) : Told s' := by
  obtain ⟨hfound, hcallers, hfirst⟩ := h.callers.goesOn hc hstage stage hnext
  have hfirst' : s'.first = Function.update s.first c.pid (some { c with stage }) := by
    funext p
    have hp := congrFun hfirst p
    rw [ExitSystem.first, hcalls]
    exact hp
  have hsome : s.first c.pid = some c := hfound
  refine ⟨hstore ▸ h.inOrder, ?_, ?_, ?_, ?_, ?_, ?_, hcalls ▸ hcallers, ?_⟩
  · rw [hinserted, hevicted, hstore]
    exact h.queue
  · rw [hevicted, hstore]
    exact h.full
  · intro p hp
    rw [hstore] at hp
    rw [hfirst', Function.update_apply]
    split
    · rfl
    · exact h.known p hp
  · intro p
    rw [hstore, htaken, hfirst']
    by_cases hp : p = c.pid
    · subst hp
      rw [Function.update_self, h.record, hsome]
      rfl
    · rw [Function.update_of_ne hp]
      exact h.record p
  · intro p
    rw [htaken, hfirst', Function.update_apply]
    rcases h.taken p with hnone | ⟨d, hd, htold⟩
    · exact .inl hnone
    · refine .inr ?_
      split
      next hp =>
        subst hp
        rw [hsome] at hd
        cases hd
        exact ⟨_, rfl, htold⟩
      next => exact ⟨d, hd, htold⟩
  · rw [hfirst']
    exact hpublished
  · rw [hfirst']
    exact hwatching

theorem published_of_ne (h : Told s) {pid : ℕ} {c c' : TerminalCall R O}
    (hc : s.first pid = some c) (hstage : c.stage ≠ .publish) (hstage' : c'.stage ≠ .publish)
    (hpid : c'.pid = c.pid) (hreason : c'.reason = c.reason) (p : ℕ) :
    s.published.filter (·.1 == p) = publishedFor (Function.update s.first pid (some c') p) := by
  rw [h.published, Function.update_apply]
  split
  next hp =>
    subst hp
    rw [hc, publishedFor, publishedFor, if_neg hstage, if_neg hstage', hpid, hreason]
  next => rfl

theorem publish (h : Told s) {i : ℕ} {c : TerminalCall R O} (hc : s.calls[i]? = some c)
    (hstage : c.stage = .publish) : Told (s.publish i c) := by
  have hskip : c.stage ≠ .skipped := by rw [hstage]; simp
  have hsome : s.first c.pid = some c := (h.callers.goesOn hc hskip .fire (by simp)).1
  refine h.goesOn hc hskip (show Stage.fire ≠ .skipped by simp) rfl rfl rfl rfl rfl (fun p => ?_)
    (h.watching.restage ?_ (.inr rfl) ?_)
  · have hold := h.published p
    rw [ExitSystem.publish, List.filter_append, hold, Function.update_apply]
    split
    next hp =>
      subst hp
      rw [hsome, publishedFor, if_pos hstage]
      simp [publishedFor]
    next hp =>
      rw [List.filter_cons_of_neg (by simpa using Ne.symm hp)]
      simp
  · intro d hd
    rw [hsome] at hd
    cases hd
    exact .inl hstage
  · intro d hd
    rw [hsome] at hd
    cases hd
    rfl

theorem fire (h : Told s) {i : ℕ} {c : TerminalCall R O} (hc : s.calls[i]? = some c)
    (hstage : c.stage = .fire) : Told (s.fire i c) := by
  have hskip : c.stage ≠ .skipped := by rw [hstage]; simp
  have hsome : s.first c.pid = some c := (h.callers.goesOn hc hskip .fire (by simp)).1
  exact h.goesOn hc hskip (by simp) rfl rfl rfl rfl rfl
    (h.published_of_ne hsome (by rw [hstage]; simp) (by simp) rfl rfl)
    (h.watching.fire hsome hstage rfl rfl)

theorem send (h : Told s) {i : ℕ} {c : TerminalCall R O} (hc : s.calls[i]? = some c)
    {watchId : ℕ} {rest : List ℕ} (hstage : c.stage = .sending (watchId :: rest)) :
    Told (s.send i c watchId rest) := by
  have hskip : c.stage ≠ .skipped := by rw [hstage]; simp
  have hsome : s.first c.pid = some c := (h.callers.goesOn hc hskip .fire (by simp)).1
  obtain ⟨w, hw, -⟩ := (h.watching.sending c.pid c _ hsome hstage).2 watchId (List.mem_cons_self ..)
  have hnext := h.watching.send { c with stage := .sending rest } hsome hstage rfl rfl hw
  rw [ExitSystem.send, hw]
  exact h.goesOn hc hskip (by simp) rfl rfl rfl rfl rfl
    (h.published_of_ne hsome (by rw [hstage]; simp) (by simp) rfl rfl) hnext

/-- Steps of the watchers change neither the store nor the callers. -/
theorem watcher (h : Told s) {s' : ExitSystem R O} (hcalls : s'.calls = s.calls)
    (hstore : s'.store = s.store) (htaken : s'.taken = s.taken)
    (hinserted : s'.inserted = s.inserted) (hevicted : s'.evicted = s.evicted)
    (hpublished : s'.published = s.published) (hwatching : Watching s.first s'.watches s'.handles) :
    Told s' := by
  have hfirst : s'.first = s.first := by
    funext p
    rw [ExitSystem.first, ExitSystem.first, hcalls]
  refine ⟨hstore ▸ h.inOrder, ?_, ?_, ?_, ?_, ?_, ?_, hcalls ▸ h.callers, hfirst ▸ hwatching⟩
  · rw [hinserted, hevicted, hstore]
    exact h.queue
  · rw [hevicted, hstore]
    exact h.full
  · rw [hstore, hfirst]
    exact h.known
  · rw [hstore, htaken, hfirst]
    exact h.record
  · rw [htaken, hfirst]
    exact h.taken
  · rw [hpublished, hfirst]
    exact h.published

theorem check (h : Told s) {id : ℕ} {w : ExitWatch R} (hw : s.handles[id]? = some w) :
    Told (s.check id w) := by
  rw [ExitSystem.check]
  split
  next hphase =>
    have hreason : s.store.finalizedReason w.pid = (s.first w.pid).map (·.reason) := by
      rw [BoundedTombstones.finalizedReason, h.record, Option.map_map]
      rfl
    have hnext := h.watching.check hw hphase
    rw [hreason]
    cases hfirst : (s.first w.pid).map (·.reason) with
    | some reason =>
      rw [hfirst] at hnext
      exact h.watcher rfl rfl rfl rfl rfl rfl hnext
    | none =>
      rw [hfirst] at hnext
      exact h.watcher rfl rfl rfl rfl rfl rfl hnext
  next => exact h

theorem recv (h : Told s) {id : ℕ} {w : ExitWatch R} (hw : s.handles[id]? = some w) :
    Told (s.recv id w) := by
  rw [ExitSystem.recv]
  split
  next notification hphase hinbox =>
    exact h.watcher rfl rfl rfl rfl rfl rfl (h.watching.recv hw hphase hinbox)
  next => exact h

theorem drop (h : Told s) {id : ℕ} {w : ExitWatch R} (hw : s.handles[id]? = some w) :
    Told (s.drop id w) := by
  rw [ExitSystem.drop]
  split
  next => exact h
  next hphase =>
    have hdropped := h.watching.dropLive hw hphase
    have hlt : id < s.handles.length := (List.getElem?_eq_some_iff.mp hw).1
    have hat : (s.handles.set id { w with phase := .dropped })[id]? =
        some { w with phase := .dropped } := List.getElem?_set_self hlt
    exact h.watcher rfl rfl rfl rfl rfl rfl (hdropped.deregister hat (by simp) (by simp))
  next hphase =>
    exact h.watcher rfl rfl rfl rfl rfl rfl
      (h.watching.deregister hw (by rw [hphase]; simp) (by rw [hphase]; simp))
  next => exact h

/-- The outcome of the first caller is handed out, and only once. -/
theorem takeOutcome_eq (h : Told s) (pid : ℕ) : (s.store.takeOutcome pid).1 =
    if pid ∈ s.taken.map (·.1) then none else (s.first pid).map fun c => (c.reason, c.outcome) := by
  rw [BoundedTombstones.takeOutcome, h.record]
  cases s.first pid with
  | none => simp
  | some c =>
    simp only [Option.map_some]
    by_cases htaken : pid ∈ s.taken.map (·.1)
    · rw [if_pos htaken, if_pos htaken]
    · rw [if_neg htaken, if_neg htaken]

theorem takeOutcome (h : Told s) (pid : ℕ) : Told (s.takeOutcome pid) := by
  have htake := h.takeOutcome_eq pid
  have hfirst : (s.takeOutcome pid).first = s.first := rfl
  by_cases hwhich : pid ∉ s.taken.map (·.1) ∧ (s.first pid).isSome
  · obtain ⟨hnot, hsome⟩ := hwhich
    obtain ⟨c, hc⟩ := Option.isSome_iff_exists.mp hsome
    rw [if_neg hnot, hc, Option.map_some] at htake
    have hrecord := h.record pid
    rw [hc, Option.map_some, if_neg hnot] at hrecord
    have hstore : (s.store.takeOutcome pid).2 = { s.store with
        outcomes := Function.update s.store.outcomes pid (some ⟨c.reason, none⟩) } := by
      rw [BoundedTombstones.takeOutcome, hrecord]
    have hlog : (s.takeOutcome pid).taken = s.taken ++ [(pid, c.reason, c.outcome)] := by
      rw [ExitSystem.takeOutcome, htake]
      rfl
    have hafter : (s.takeOutcome pid).store = (s.store.takeOutcome pid).2 := rfl
    refine ⟨?_, ?_, ?_, ?_, ?_, ?_, h.published, h.callers, h.watching⟩
    · rw [hafter, hstore]
      exact ⟨h.inOrder.pids, h.inOrder.nodup, h.inOrder.room, h.inOrder.capacity_pos⟩
    · rw [hafter, hstore]
      exact h.queue
    · rw [hafter, hstore]
      exact h.full
    · rw [hafter, hstore]
      exact h.known
    · intro p
      rw [hafter, hstore, hlog, hfirst]
      dsimp only
      by_cases hp : p = pid
      · subst hp
        rw [Function.update_self, hc, Option.map_some, if_pos (by simp)]
      · rw [Function.update_of_ne hp, h.record p]
        have hmem : p ∈ (s.taken ++ [(pid, c.reason, c.outcome)]).map (·.1) ↔
            p ∈ s.taken.map (·.1) := by
          simp [hp]
        simp only [hmem]
    · intro p
      rw [hlog, hfirst, List.filter_append]
      by_cases hp : p = pid
      · subst hp
        exact .inr ⟨c, hc, by rw [filter_taken_eq_nil.mpr hnot]; simp⟩
      · rw [List.filter_cons_of_neg (by simpa using Ne.symm hp), List.filter_nil, List.append_nil]
        exact h.taken p
  · have hnone : (s.store.takeOutcome pid).1 = none := by
      rw [htake]
      split
      · rfl
      next hnot =>
        cases hfound : s.first pid with
        | none => rfl
        | some c => exact absurd ⟨hnot, by rw [hfound]; rfl⟩ hwhich
    have hstore : (s.store.takeOutcome pid).2 = s.store := by
      rw [BoundedTombstones.takeOutcome] at hnone ⊢
      split
      · rfl
      next finalized hfinalized =>
        rw [hfinalized] at hnone
        dsimp only at hnone ⊢
        split
        · rfl
        next outcome houtcome =>
          rw [houtcome] at hnone
          cases hnone
    have hsame : s.takeOutcome pid = s := by
      rw [ExitSystem.takeOutcome, hnone, hstore]
      simp
    rw [hsame]
    exact h

theorem step (h : Told s) (action : ExitAction R O) : Told (s.step action) := by
  cases action with
  | insertOutcome pid reason outcome => exact h.insertOutcome pid reason outcome
  | publish call =>
    simp only [ExitSystem.step]
    split
    next c hc =>
      split
      next hstage => exact h.publish hc hstage
      next => exact h
    next => exact h
  | fire call =>
    simp only [ExitSystem.step]
    split
    next c hc =>
      split
      next hstage => exact h.fire hc hstage
      next => exact h
    next => exact h
  | send call =>
    simp only [ExitSystem.step]
    split
    next c hc =>
      split
      next watchId rest hstage => exact h.send hc hstage
      next => exact h
    next => exact h
  | takeOutcome pid => exact h.takeOutcome pid
  | register pid => exact h.watcher rfl rfl rfl rfl rfl rfl (h.watching.register pid)
  | check watchId =>
    simp only [ExitSystem.step]
    split
    next w hw => exact h.check hw
    next => exact h
  | recv watchId =>
    simp only [ExitSystem.step]
    split
    next w hw => exact h.recv hw
    next => exact h
  | drop watchId =>
    simp only [ExitSystem.step]
    split
    next w hw => exact h.drop hw
    next => exact h

end Told

/-! ## Every run -/

/-- No terminal caller has anything left to do. -/
def ExitSystem.Settled (s : ExitSystem R O) : Prop :=
  ∀ c ∈ s.calls, c.stage = .skipped ∨ c.stage = .done

theorem takeOutcome_capacity (t : BoundedTombstones R O) (pid : ℕ) :
    (t.takeOutcome pid).2.capacity = t.capacity := by
  rw [BoundedTombstones.takeOutcome]
  split
  · rfl
  · split <;> rfl

theorem Told.step_capacity {s : ExitSystem R O} (h : Told s) (action : ExitAction R O) :
    (s.step action).store.capacity = s.store.capacity := by
  cases action with
  | insertOutcome pid reason outcome => exact (h.inOrder.insertOutcome pid reason outcome).2.1
  | publish call =>
    simp only [ExitSystem.step]
    split
    · split <;> rfl
    · rfl
  | fire call =>
    simp only [ExitSystem.step]
    split
    · split <;> rfl
    · rfl
  | send call =>
    simp only [ExitSystem.step]
    split
    · split
      · rw [ExitSystem.send]
        split <;> rfl
      · rfl
    · rfl
  | takeOutcome pid => exact takeOutcome_capacity s.store pid
  | register pid => rfl
  | check watchId =>
    simp only [ExitSystem.step]
    split
    · rw [ExitSystem.check]
      split
      · split <;> rfl
      · rfl
    · rfl
  | recv watchId =>
    simp only [ExitSystem.step]
    split
    · rw [ExitSystem.recv]
      split <;> rfl
    · rfl
  | drop watchId =>
    simp only [ExitSystem.step]
    split
    · rw [ExitSystem.drop]
      split <;> rfl
    · rfl

theorem Told.run {s : ExitSystem R O} (h : Told s) (actions : List (ExitAction R O)) :
    Told (actions.foldl ExitSystem.step s) ∧
      (actions.foldl ExitSystem.step s).store.capacity = s.store.capacity := by
  induction actions generalizing s with
  | nil => exact ⟨h, rfl⟩
  | cons action rest ih =>
    obtain ⟨hlast, hcapacity⟩ := ih (h.step action)
    exact ⟨hlast, hcapacity.trans (h.step_capacity action)⟩

/-- Each exit is recorded, published, taken and told to every watch once, with the reason of the
first terminal caller of the pid. -/
structure ExactlyOnce (s : ExitSystem R O) (capacity : ℕ) : Prop where
  publishedOnce : ∀ pid, s.published.filter (·.1 == pid) = [] ∨
    ∃ c, s.first pid = some c ∧ s.published.filter (·.1 == pid) = [(pid, c.reason)]
  publishedAll : s.Settled → ∀ pid c, s.first pid = some c →
    s.published.filter (·.1 == pid) = [(pid, c.reason)]
  takenOnce : ∀ pid, s.taken.filter (·.1 == pid) = [] ∨
    ∃ c, s.first pid = some c ∧ s.taken.filter (·.1 == pid) = [(pid, c.reason, c.outcome)]
  takenFirst : ∀ pid, (s.store.takeOutcome pid).1 =
    if pid ∈ s.taken.map (·.1) then none else (s.first pid).map fun c => (c.reason, c.outcome)
  toldOnce : ∀ (id : ℕ) w, s.handles[id]? = some w → w.notifications = [] ∨
    ∃ c, s.first w.pid = some c ∧ w.notifications = [(w.pid, c.reason)]
  toldAll : s.Settled → ∀ (id : ℕ) w c, s.handles[id]? = some w → s.first w.pid = some c →
    w.phase ≠ .armed → w.phase ≠ .dropped → w.notifications = [(w.pid, c.reason)]
  bounded : s.store.reasons.length ≤ max capacity 1
  oldestFirst : s.inserted = s.evicted ++ s.store.reasons.map (·.1) ∧
    s.store.reasons.length = min s.inserted.length (max capacity 1)

/-- A watch that has been told anything has been told the reason of the first caller. -/
theorem Told.notifications {s : ExitSystem R O} (h : Told s) {id : ℕ} {w : ExitWatch R}
    (hw : s.handles[id]? = some w) : w.notifications = [] ∨
      ∃ c, s.first w.pid = some c ∧ w.notifications = [(w.pid, c.reason)] := by
  have hold := h.watching.each id w hw
  cases hphase : w.phase with
  | armed => exact .inl (by rw [ExitWatch.notifications, hphase])
  | live =>
    rcases hold.live hphase with ⟨-, -, hnone⟩ | ⟨c, ids, hc, -, htold⟩
    · exact .inl hnone
    · split at htold
      · exact .inl htold
      · exact .inr ⟨c, hc, htold⟩
  | alreadyExited reason =>
    obtain ⟨c, hc, hreason⟩ := hold.exited reason hphase
    exact .inr ⟨c, hc, by rw [ExitWatch.notifications, hphase, hreason]⟩
  | dropped =>
    rw [ExitWatch.notifications, hphase]
    exact hold.dropped hphase

theorem Told.notifications_of_settled {s : ExitSystem R O} (h : Told s) (hsettled : s.Settled)
    {id : ℕ} {w : ExitWatch R} {c : TerminalCall R O} (hw : s.handles[id]? = some w)
    (hc : s.first w.pid = some c) (harmed : w.phase ≠ .armed) (hdropped : w.phase ≠ .dropped) :
    w.notifications = [(w.pid, c.reason)] := by
  have hold := h.watching.each id w hw
  have hdone : c.stage = .done :=
    (hsettled c (List.mem_of_find?_eq_some hc)).resolve_left (h.callers.first _ c hc)
  cases hphase : w.phase with
  | armed => exact absurd hphase harmed
  | live =>
    rcases hold.live hphase with ⟨hwaiting, -⟩ | ⟨d, ids, hd, hids, htold⟩
    · rcases hwaiting c hc with hstage | hstage <;> rw [hdone] at hstage <;> cases hstage
    · rw [hc] at hd
      cases hd
      rw [hdone] at hids
      cases hids
      exact htold
  | alreadyExited reason =>
    obtain ⟨d, hd, hreason⟩ := hold.exited reason hphase
    rw [hc] at hd
    cases hd
    rw [ExitWatch.notifications, hphase, hreason]
  | dropped => exact absurd hphase hdropped

end Beamr.Scheduler
