import TritonCpu.ProtonRegistry

/-!
# Runs of the session registry

Every call leaves a consistent registry and undoes nothing when it throws, with
one exception: `addSession` enters the path and gives out the id of a new session
before it makes the session, so that an unknown name leaves a path to a session
that does not exist.
-/

set_option autoImplicit false

namespace TritonCpu.Proton

section Calls

variable {m : SessionManager} {sessionId : ℕ}

/-- A call that returns leaves the invariant, one that throws leaves the registry. -/
def Keeps {α : Type} (m : SessionManager) : EStateM.Result String SessionManager α → Prop
  | .ok _ m' => Invariant m'
  | .error _ m' => m' = m

theorem exists_lookup (h : sessionId ∈ m.sessions) :
    ∃ session, session ∈ m.sessions.lookup sessionId :=
  Option.isSome_iff_exists.mp (AList.lookup_isSome.mpr h)

theorem activateSessionImpl_keeps (hinv : Invariant m) (sessionId : ℕ) :
    Keeps m ((activateSessionImpl sessionId).run m) := by
  by_cases hmem : sessionId ∈ m.sessions
  · obtain ⟨session, h⟩ := exists_lookup hmem
    rw [activateSessionImpl_run h]
    split_ifs with hactive
    · exact hinv
    · exact hinv.switch h (by simpa using hactive)
  · unfold activateSessionImpl
    rw [EStateM.run_bind, throwIfSessionNotInitialized_throws hmem]
    exact rfl

theorem deActivateSessionImpl_ok (hinv : Invariant m) (hmem : sessionId ∈ m.sessions) :
    ∃ m', (deActivateSessionImpl sessionId).run m = .ok () m' ∧ Invariant m' ∧
      m'.sessions = m.sessions ∧
      ∀ other, m'.isActive other = if other = sessionId then false else m.isActive other := by
  obtain ⟨session, h⟩ := exists_lookup hmem
  refine ⟨_, deActivateSessionImpl_run h, ?_⟩
  split_ifs with hactive
  · exact ⟨hinv.switch h hactive, rfl, isActive_switch m sessionId session false⟩
  · refine ⟨hinv.touch sessionId, (touch_fields m sessionId).2.2.1, fun other => ?_⟩
    rw [isActive_touch]
    split_ifs with hother
    · rw [hother]
      simpa using hactive
    · rfl

theorem deActivateSessionImpl_keeps (hinv : Invariant m) (sessionId : ℕ) :
    Keeps m ((deActivateSessionImpl sessionId).run m) := by
  by_cases hmem : sessionId ∈ m.sessions
  · obtain ⟨m', hrun, hinv', -⟩ := deActivateSessionImpl_ok hinv hmem
    rw [hrun]
    exact hinv'
  · unfold deActivateSessionImpl
    rw [EStateM.run_bind, throwIfSessionNotInitialized_throws hmem]
    exact rfl

theorem removeSession_ok (hinv : Invariant m) (hactive : m.isActive sessionId = false) :
    ∃ m', (removeSession sessionId).run m = .ok () m' ∧ Invariant m' ∧
      ∀ other, m'.isActive other = m.isActive other := by
  unfold removeSession
  rw [run_modify]
  cases h : m.sessions.lookup sessionId with
  | some session => exact ⟨_, rfl, hinv.removed h hactive, fun _ => rfl⟩
  | none => exact ⟨_, rfl, hinv, fun _ => rfl⟩

theorem finalize_run (m : SessionManager) (sessionId : ℕ) :
    (finalize sessionId .hatchet).run m = .ok () m := by
  unfold finalize
  rw [EStateM.run_bind, EStateM.run_get]
  cases h : m.sessions.lookup sessionId with
  | some session =>
    simp only [h]
    unfold dump outputFormatToString
    split_ifs <;> rfl
  | none =>
    simp only [h]
    rfl

theorem parseOutputFormat_run (m : SessionManager) (outputFormat : String) :
    (parseOutputFormat outputFormat).run m = .ok .hatchet m ∨
      ∃ what, (parseOutputFormat outputFormat).run m = .error what m := by
  unfold parseOutputFormat
  split_ifs
  · exact .inl rfl
  · exact .inr ⟨_, rfl⟩

theorem finalizeSession_keeps (hinv : Invariant m) (sessionId : ℕ) :
    Keeps m ((finalizeSession sessionId .hatchet).run m) := by
  unfold finalizeSession
  change Keeps m ((if sessionId ∈ m.sessions then _ else _ : Action Unit).run m)
  split_ifs with hmem
  · obtain ⟨m₁, hrun₁, hinv₁, -, hactive₁⟩ := deActivateSessionImpl_ok hinv hmem
    have hinactive : m₁.isActive sessionId = false := by rw [hactive₁, if_pos rfl]
    obtain ⟨m₂, hrun₂, hinv₂, -⟩ := removeSession_ok hinv₁ hinactive
    simp only [EStateM.run_bind, hrun₁, finalize_run, hrun₂]
    exact hinv₂
  · exact hinv

theorem deactivateAll_ok (ids : List ℕ) : ∀ {m : SessionManager}, Invariant m →
    (∀ id ∈ ids, id ∈ m.sessions) →
    ∃ m', (forM ids fun id => do
        deActivateSessionImpl id
        finalize id .hatchet : Action Unit).run m = .ok () m' ∧ Invariant m' ∧
      (∀ other, m'.isActive other = true → other ∉ ids ∧ m.isActive other = true) := by
  induction ids with
  | nil => exact fun {m} hinv _ => ⟨m, rfl, hinv, fun _ h => ⟨List.not_mem_nil, h⟩⟩
  | cons id rest ih =>
    intro m hinv hmem
    obtain ⟨m₁, hrun₁, hinv₁, hsessions₁, hactive₁⟩ :=
      deActivateSessionImpl_ok hinv (hmem id List.mem_cons_self)
    have hrest : ∀ other ∈ rest, other ∈ m₁.sessions := by
      intro other hother
      rw [hsessions₁]
      exact hmem other (List.mem_cons_of_mem id hother)
    obtain ⟨m₂, hrun₂, hinv₂, hactive₂⟩ := ih hinv₁ hrest
    refine ⟨m₂, ?_, hinv₂, fun other hother => ?_⟩
    · rw [List.forM_cons]
      simp only [EStateM.run_bind, hrun₁, finalize_run]
      exact hrun₂
    · obtain ⟨hnotMem, hother₁⟩ := hactive₂ other hother
      rw [hactive₁] at hother₁
      split_ifs at hother₁ with heq
      exact ⟨by simp [heq, hnotMem], hother₁⟩

theorem removeAll_ok (ids : List ℕ) : ∀ {m : SessionManager}, Invariant m →
    (∀ id ∈ ids, m.isActive id = false) →
    ∃ m', (forM ids removeSession).run m = .ok () m' ∧ Invariant m' := by
  induction ids with
  | nil => exact fun {m} hinv _ => ⟨m, rfl, hinv⟩
  | cons id rest ih =>
    intro m hinv hactive
    obtain ⟨m₁, hrun₁, hinv₁, hactive₁⟩ :=
      removeSession_ok hinv (hactive id List.mem_cons_self)
    obtain ⟨m₂, hrun₂, hinv₂⟩ := ih hinv₁ fun other hother => by
      rw [hactive₁]
      exact hactive other (List.mem_cons_of_mem id hother)
    refine ⟨m₂, ?_, hinv₂⟩
    rw [List.forM_cons]
    simp only [EStateM.run_bind, hrun₁]
    exact hrun₂

theorem finalizeAllSessions_keeps (hinv : Invariant m) :
    Keeps m ((finalizeAllSessions .hatchet).run m) := by
  have hids (id : ℕ) : id ∈ m.sessions.keys.mergeSort (· ≤ ·) ↔ id ∈ m.sessions := by
    rw [List.mem_mergeSort, AList.mem_keys]
  obtain ⟨m₁, hrun₁, hinv₁, hactive₁⟩ :=
    deactivateAll_ok (m.sessions.keys.mergeSort (· ≤ ·)) hinv fun id h => (hids id).mp h
  obtain ⟨m₂, hrun₂, hinv₂⟩ :=
    removeAll_ok (m.sessions.keys.mergeSort (· ≤ ·)) hinv₁ fun id h => by
      by_contra hid
      exact (hactive₁ id (by simpa using hid)).1 h
  unfold finalizeAllSessions
  simp only [EStateM.run_bind, EStateM.run_get, hrun₁]
  rw [hrun₂]
  exact hinv₂

variable {path profilerName contextSourceName dataName : String} {ca da : ℕ}

theorem addSession_of_path (h : sessionId ∈ m.sessionPaths.lookup path) :
    (addSession path profilerName contextSourceName dataName ca da).run m =
      (do
        activateSessionImpl sessionId
        pure sessionId : Action ℕ).run m := by
  unfold addSession
  rw [EStateM.run_bind]
  simp only [EStateM.run_get]
  rw [Option.mem_def.mp h]

theorem addSession_of_new (h : path ∉ m.sessionPaths) :
    (KnownNames profilerName contextSourceName dataName ∧ ∃ profiler contextSource,
      (addSession path profilerName contextSourceName dataName ca da).run m =
        .ok m.nextSessionId { m with
          nextSessionId := m.nextSessionId + 1
          sessionPaths := m.sessionPaths.insert path m.nextSessionId
          sessions := m.sessions.insert m.nextSessionId
            ⟨path, m.nextSessionId, profiler, contextSource, ca, da⟩ }) ∨
    (¬ KnownNames profilerName contextSourceName dataName ∧ ∃ what,
      (addSession path profilerName contextSourceName dataName ca da).run m =
        .error what { m with
          nextSessionId := m.nextSessionId + 1
          sessionPaths := m.sessionPaths.insert path m.nextSessionId }) := by
  unfold addSession
  simp only [EStateM.run_bind, EStateM.run_get]
  rw [AList.lookup_eq_none.mpr h]
  simp only [EStateM.run_bind, EStateM.run_get, run_modify]
  rcases makeSession_run { m with
      nextSessionId := m.nextSessionId + 1
      sessionPaths := m.sessionPaths.insert path m.nextSessionId }
    m.nextSessionId path profilerName contextSourceName dataName ca da with
    ⟨hknown, profiler, contextSource, hrun⟩ | ⟨hknown, what, hrun⟩
  · rw [hrun]
    exact .inl ⟨hknown, profiler, contextSource, rfl⟩
  · rw [hrun]
    exact .inr ⟨hknown, what, rfl⟩

end Calls

def Call.after (call : Call) (m : SessionManager) : SessionManager :=
  match call.action.run m with
  | .ok _ m' => m'
  | .error _ m' => m'

def Call.throws (call : Call) (m : SessionManager) : Bool :=
  match call.action.run m with
  | .ok _ _ => false
  | .error _ _ => true

/-- The call names a profiler, a context source and data that there are, or adds no session. -/
def Call.Known (m : SessionManager) : Call → Prop
  | .addSession path profilerName contextSourceName dataName _ _ =>
    path ∈ m.sessionPaths ∨ KnownNames profilerName contextSourceName dataName
  | _ => True

theorem Call.keeps {m : SessionManager} {call : Call} (hinv : Invariant m) (h : call.Known m) :
    Keeps m (call.action.run m) := by
  cases call with
  | addSession path profilerName contextSourceName dataName ca da =>
    unfold Call.action
    rw [EStateM.run_bind]
    by_cases hpath : path ∈ m.sessionPaths
    · obtain ⟨sessionId, hlookup⟩ :=
        Option.isSome_iff_exists.mp (AList.lookup_isSome.mpr hpath)
      rw [addSession_of_path hlookup, EStateM.run_bind]
      have hkeeps := activateSessionImpl_keeps hinv sessionId
      cases hrun : (activateSessionImpl sessionId).run m with
      | ok _ m' => rwa [hrun] at hkeeps
      | error what m' => rwa [hrun] at hkeeps
    · rcases addSession_of_new hpath with ⟨-, profiler, contextSource, hrun⟩ | ⟨hknown, -⟩
      · rw [hrun]
        have hlookup : m.sessionPaths.lookup
            (Session.mk path m.nextSessionId profiler contextSource ca da).path = none :=
          AList.lookup_eq_none.mpr hpath
        exact hinv.added hlookup
      · exact absurd (h.resolve_left hpath) hknown
  | activateSession sessionId => exact activateSessionImpl_keeps hinv sessionId
  | deactivateSession sessionId => exact deActivateSessionImpl_keeps hinv sessionId
  | finalizeSession sessionId outputFormat =>
    unfold Call.action
    rw [EStateM.run_bind]
    rcases parseOutputFormat_run m outputFormat with hrun | ⟨what, hrun⟩
    · rw [hrun]
      exact finalizeSession_keeps hinv sessionId
    · rw [hrun]
      exact rfl
  | finalizeAllSessions outputFormat =>
    unfold Call.action
    rw [EStateM.run_bind]
    rcases parseOutputFormat_run m outputFormat with hrun | ⟨what, hrun⟩
    · rw [hrun]
      exact finalizeAllSessions_keeps hinv
    · rw [hrun]
      exact rfl

theorem Call.invariant_after {m : SessionManager} {call : Call} (hinv : Invariant m)
    (h : call.Known m) : Invariant (call.after m) := by
  have hkeeps := call.keeps hinv h
  unfold Call.after
  cases hrun : call.action.run m with
  | ok _ m' => rwa [hrun] at hkeeps
  | error what m' =>
    rw [hrun] at hkeeps
    change Invariant m'
    rw [show m' = m from hkeeps]
    exact hinv

theorem Call.after_of_throws {m : SessionManager} {call : Call} (hinv : Invariant m)
    (h : call.Known m) (hthrows : call.throws m = true) : call.after m = m := by
  have hkeeps := call.keeps hinv h
  unfold Call.throws at hthrows
  unfold Call.after
  cases hrun : call.action.run m with
  | ok _ m' =>
    rw [hrun] at hthrows
    exact Bool.noConfusion hthrows
  | error what m' =>
    rw [hrun] at hkeeps
    exact hkeeps

theorem Call.not_consistent_after {m : SessionManager} {call : Call} (hinv : Invariant m)
    (h : ¬ call.Known m) : ¬ Consistent (call.after m) := by
  cases call with
  | addSession path profilerName contextSourceName dataName ca da =>
    obtain ⟨hpath, hknown⟩ := not_or.mp h
    rcases addSession_of_new hpath with ⟨hknown', -⟩ | ⟨-, what, hrun⟩
    · exact absurd hknown' hknown
    · intro hconsistent
      have hafter : (Call.addSession path profilerName contextSourceName dataName ca da).after m =
          { m with
            nextSessionId := m.nextSessionId + 1
            sessionPaths := m.sessionPaths.insert path m.nextSessionId } := by
        unfold Call.after Call.action
        rw [EStateM.run_bind, hrun]
      rw [hafter] at hconsistent
      have hmem := hconsistent.path_session path m.nextSessionId
        (Option.mem_def.mpr (AList.lookup_insert _))
      exact lt_irrefl _ (hinv.used _ hmem)
  | activateSession sessionId => exact absurd trivial h
  | deactivateSession sessionId => exact absurd trivial h
  | finalizeSession sessionId outputFormat => exact absurd trivial h
  | finalizeAllSessions outputFormat => exact absurd trivial h

/-- The states of the runs in which every call is `Known`. -/
inductive Reachable : SessionManager → Prop where
  | new : Reachable .new
  | call {m : SessionManager} (call : Call) : Reachable m → call.Known m → Reachable (call.after m)

theorem Reachable.invariant {m : SessionManager} (h : Reachable m) : Invariant m := by
  induction h with
  | new => exact invariant_new
  | call call _ hknown ih => exact call.invariant_after ih hknown

end TritonCpu.Proton
