import Mathlib
import TritonCpu.ProtonSession

/-!
# What the session registry keeps

In a registry that is consistent, paths and sessions correspond one to one, only
sessions that exist are active, and an interface is counted as often as active
sessions use it.
-/

set_option autoImplicit false

namespace TritonCpu.Proton

/-- `activeSessions[sessionId]`, without the entry that reading it makes. -/
def SessionManager.isActive (m : SessionManager) (sessionId : ℕ) : Bool :=
  (m.activeSessions.lookup sessionId).getD false

/-- The session exists, is active and uses the interface of the object. -/
def SessionManager.Uses (m : SessionManager) (T : Interface) (object : Object)
    (sessionId : ℕ) : Prop :=
  m.isActive sessionId = true ∧
    ∃ session ∈ m.sessions.lookup sessionId, object ∈ session.getInterfaces T

instance (m : SessionManager) (T : Interface) (object : Object) :
    DecidablePred (m.Uses T object) := fun _ =>
  inferInstanceAs (Decidable (_ ∧ _))

def SessionManager.users (m : SessionManager) (T : Interface) (object : Object) : Finset ℕ :=
  m.sessions.keys.toFinset.filter (m.Uses T object)

structure Consistent (m : SessionManager) : Prop where
  path_session : ∀ path sessionId, sessionId ∈ m.sessionPaths.lookup path → sessionId ∈ m.sessions
  path_injective : ∀ path path' sessionId, sessionId ∈ m.sessionPaths.lookup path →
    sessionId ∈ m.sessionPaths.lookup path' → path = path'
  session_path : ∀ sessionId ∈ m.sessions, ∃ path, sessionId ∈ m.sessionPaths.lookup path
  active : ∀ sessionId, m.isActive sessionId = true → sessionId ∈ m.sessions
  counts : ∀ T object,
    ((m.interfaceCounts T).lookup object).getD 0 = ((m.users T object).card : ℤ)

/-- A profiler, a context source and data that there are; upper and lower case are the same. -/
def KnownNames (profilerName contextSourceName dataName : String) : Prop :=
  profilerName.toLower ∈ ["cupti", "cupti_pcsampling", "roctracer"] ∧
    contextSourceName.toLower ∈ ["shadow", "python"] ∧ dataName.toLower = "tree"

@[simp] theorem run_modify (f : SessionManager → SessionManager) (m : SessionManager) :
    (modify f : Action Unit).run m = .ok () (f m) := rfl

section Names

variable (m : SessionManager)

theorem getProfiler_run (profilerName : String) :
    (profilerName.toLower ∈ ["cupti", "cupti_pcsampling", "roctracer"] ∧
      ∃ profiler, (getProfiler profilerName).run m = .ok profiler m) ∨
    (profilerName.toLower ∉ ["cupti", "cupti_pcsampling", "roctracer"] ∧
      ∃ what, (getProfiler profilerName).run m = .error what m) := by
  unfold getProfiler
  split_ifs with h h' h''
  · exact .inl ⟨by simp [h], _, rfl⟩
  · exact .inl ⟨by simp [h'], _, rfl⟩
  · exact .inl ⟨by simp [h''], _, rfl⟩
  · exact .inr ⟨by simp [h, h', h''], _, rfl⟩

theorem makeContextSource_run (contextSourceName : String) :
    (contextSourceName.toLower ∈ ["shadow", "python"] ∧
      ∃ contextSource, (makeContextSource contextSourceName).run m = .ok contextSource m) ∨
    (contextSourceName.toLower ∉ ["shadow", "python"] ∧
      ∃ what, (makeContextSource contextSourceName).run m = .error what m) := by
  unfold makeContextSource
  split_ifs with h h'
  · exact .inl ⟨by simp [h], _, rfl⟩
  · exact .inl ⟨by simp [h'], _, rfl⟩
  · exact .inr ⟨by simp [h, h'], _, rfl⟩

theorem makeData_run (dataName : String) :
    (dataName.toLower = "tree" ∧ (makeData dataName).run m = .ok () m) ∨
    (dataName.toLower ≠ "tree" ∧ ∃ what, (makeData dataName).run m = .error what m) := by
  unfold makeData
  split_ifs with h
  · exact .inl ⟨h, rfl⟩
  · exact .inr ⟨h, _, rfl⟩

theorem makeSession_run (id : ℕ) (path profilerName contextSourceName dataName : String)
    (ca da : ℕ) :
    (KnownNames profilerName contextSourceName dataName ∧ ∃ profiler contextSource,
      (makeSession id path profilerName contextSourceName dataName ca da).run m =
        .ok ⟨path, id, profiler, contextSource, ca, da⟩ m) ∨
    (¬ KnownNames profilerName contextSourceName dataName ∧ ∃ what,
      (makeSession id path profilerName contextSourceName dataName ca da).run m =
        .error what m) := by
  unfold makeSession
  rw [EStateM.run_bind]
  rcases getProfiler_run m profilerName with ⟨hp, profiler, hrun⟩ | ⟨hp, what, hrun⟩
  · simp only [hrun, EStateM.run_bind]
    rcases makeContextSource_run m contextSourceName with
      ⟨hc, contextSource, hrun⟩ | ⟨hc, what, hrun⟩
    · simp only [hrun]
      rcases makeData_run m dataName with ⟨hd, hrun⟩ | ⟨hd, what, hrun⟩
      · rw [hrun]
        exact .inl ⟨⟨hp, hc, hd⟩, profiler, contextSource, rfl⟩
      · rw [hrun]
        exact .inr ⟨fun h => hd h.2.2, what, rfl⟩
    · simp only [hrun]
      exact .inr ⟨fun h => hc h.2.1, what, rfl⟩
  · simp only [hrun]
    exact .inr ⟨fun h => hp h.1, what, rfl⟩

end Names

/-- What the calls need of each other: the ids in use are those that were given out, and the
path of a session is the one that leads to it. -/
structure Invariant (m : SessionManager) : Prop where
  paths : ∀ path sessionId, sessionId ∈ m.sessionPaths.lookup path ↔
    ∃ session ∈ m.sessions.lookup sessionId, session.path = path
  used : ∀ sessionId ∈ m.sessions, sessionId < m.nextSessionId
  active : ∀ sessionId, m.isActive sessionId = true → sessionId ∈ m.sessions
  counts : ∀ T object,
    ((m.interfaceCounts T).lookup object).getD 0 = ((m.users T object).card : ℤ)

theorem Invariant.consistent {m : SessionManager} (h : Invariant m) : Consistent m where
  path_session path sessionId hpath := by
    obtain ⟨session, hsession, -⟩ := (h.paths path sessionId).mp hpath
    exact AList.lookup_isSome.mp (Option.isSome_of_mem hsession)
  path_injective path path' sessionId hpath hpath' := by
    obtain ⟨session, hsession, hp⟩ := (h.paths path sessionId).mp hpath
    obtain ⟨session', hsession', hp'⟩ := (h.paths path' sessionId).mp hpath'
    rw [← hp, ← hp', Option.mem_unique hsession hsession']
  session_path sessionId hmem := by
    obtain ⟨session, hsession⟩ := Option.isSome_iff_exists.mp (AList.lookup_isSome.mpr hmem)
    exact ⟨session.path, (h.paths session.path sessionId).mpr ⟨session, hsession, rfl⟩⟩
  active := h.active
  counts := h.counts

theorem invariant_new : Invariant .new where
  paths path sessionId := by simp [SessionManager.new]
  used sessionId h := by simp [SessionManager.new] at h
  active sessionId h := by simp [SessionManager.new, SessionManager.isActive] at h
  counts T object := rfl

section Switch

variable {m : SessionManager} {sessionId : ℕ} {session : Session}

/-- The entry that reading `activeSessions[sessionId]` makes. -/
def SessionManager.touch (m : SessionManager) (sessionId : ℕ) : SessionManager :=
  if sessionId ∈ m.activeSessions then m
  else { m with activeSessions := m.activeSessions.insert sessionId false }

/-- A session becomes active, or stops being active, and its interfaces are counted. -/
def SessionManager.switch (m : SessionManager) (sessionId : ℕ) (session : Session)
    (active : Bool) : SessionManager :=
  { m with
    activeSessions := m.activeSessions.insert sessionId active
    interfaceCounts := fun T =>
      addCounts (session.getInterfaces T) (if active then 1 else -1) (m.interfaceCounts T) }

theorem throwIfSessionNotInitialized_run (h : sessionId ∈ m.sessions) :
    (throwIfSessionNotInitialized sessionId).run m = .ok () m := by
  unfold throwIfSessionNotInitialized
  simp [h]

theorem throwIfSessionNotInitialized_throws (h : sessionId ∉ m.sessions) :
    (throwIfSessionNotInitialized sessionId).run m =
      .error ("Session has not been initialized: " ++ toString sessionId) m := by
  unfold throwIfSessionNotInitialized
  simp [h]

theorem activeSession_run (m : SessionManager) (sessionId : ℕ) :
    (activeSession sessionId).run m = .ok (m.isActive sessionId) (m.touch sessionId) := by
  unfold activeSession SessionManager.isActive SessionManager.touch
  cases h : m.activeSessions.lookup sessionId with
  | some active =>
    have hmem := AList.lookup_isSome.mp (Option.isSome_of_mem h)
    simp [h, hmem]
  | none =>
    have hmem := AList.lookup_eq_none.mp h
    simp [h, hmem]

theorem touch_insert (m : SessionManager) (sessionId : ℕ) (active : Bool) :
    (m.touch sessionId).activeSessions.insert sessionId active =
      m.activeSessions.insert sessionId active := by
  unfold SessionManager.touch
  split_ifs
  · rfl
  · exact AList.insert_insert _

theorem touch_of_active (h : m.isActive sessionId = true) : m.touch sessionId = m := by
  have hmem : sessionId ∈ m.activeSessions := by
    rw [← AList.lookup_isSome]
    by_contra hnone
    rw [Bool.not_eq_true, Option.isSome_eq_false_iff, Option.isNone_iff_eq_none] at hnone
    simp [SessionManager.isActive, hnone] at h
  rw [SessionManager.touch, if_pos hmem]

theorem countInterfaces_run (h : session ∈ m.sessions.lookup sessionId) (T : Interface)
    (amount : ℤ) : (countInterfaces T sessionId amount).run m = .ok () { m with
      interfaceCounts := Function.update m.interfaceCounts T
        (addCounts (session.getInterfaces T) amount (m.interfaceCounts T)) } := by
  unfold countInterfaces
  rw [run_modify, Option.mem_def.mp h]

theorem switch_run (h : session ∈ m.sessions.lookup sessionId) (active : Bool) :
    (do
      setActive sessionId active
      countInterfaces .scope sessionId (if active then 1 else -1)
      countInterfaces .op sessionId (if active then 1 else -1) : Action Unit).run
        (m.touch sessionId) = .ok () (m.switch sessionId session active) := by
  have hswitch : (setActive sessionId active).run (m.touch sessionId) =
      .ok () { m with activeSessions := m.activeSessions.insert sessionId active } := by
    rw [setActive, run_modify, touch_insert]
    unfold SessionManager.touch
    split_ifs <;> rfl
  rw [EStateM.run_bind, hswitch]
  simp only
  rw [EStateM.run_bind, countInterfaces_run (by exact h)]
  simp only
  rw [countInterfaces_run (by exact h), SessionManager.switch]
  congr 2
  funext T
  cases T <;> rfl

theorem activateSessionImpl_run (h : session ∈ m.sessions.lookup sessionId) :
    (activateSessionImpl sessionId).run m =
      .ok () (if m.isActive sessionId then m else m.switch sessionId session true) := by
  have hmem := AList.lookup_isSome.mp (Option.isSome_of_mem h)
  unfold activateSessionImpl
  rw [EStateM.run_bind, throwIfSessionNotInitialized_run hmem]
  simp only [EStateM.run_bind, activeSession_run]
  cases hactive : m.isActive sessionId with
  | true =>
    rw [touch_of_active hactive]
    rfl
  | false => exact switch_run h true

theorem deActivateSessionImpl_run (h : session ∈ m.sessions.lookup sessionId) :
    (deActivateSessionImpl sessionId).run m = .ok ()
      (if m.isActive sessionId then m.switch sessionId session false else m.touch sessionId) := by
  have hmem := AList.lookup_isSome.mp (Option.isSome_of_mem h)
  unfold deActivateSessionImpl
  rw [EStateM.run_bind, throwIfSessionNotInitialized_run hmem]
  simp only [EStateM.run_bind, activeSession_run]
  cases hactive : m.isActive sessionId with
  | true => exact switch_run h false
  | false => rfl

theorem isActive_switch (m : SessionManager) (sessionId : ℕ) (session : Session) (active : Bool)
    (other : ℕ) : (m.switch sessionId session active).isActive other =
      if other = sessionId then active else m.isActive other := by
  change ((m.activeSessions.insert sessionId active).lookup other).getD false = _
  by_cases h : other = sessionId
  · rw [h, AList.lookup_insert, Option.getD_some, if_pos rfl]
  · rw [AList.lookup_insert_ne h, if_neg h]
    rfl

theorem isActive_touch (m : SessionManager) (sessionId other : ℕ) :
    (m.touch sessionId).isActive other = m.isActive other := by
  unfold SessionManager.touch SessionManager.isActive
  split_ifs with h
  · rfl
  · by_cases hother : other = sessionId
    · rw [hother, AList.lookup_insert, AList.lookup_eq_none.mpr h]
      rfl
    · rw [AList.lookup_insert_ne hother]

theorem lookup_addCounts (interfaces : List Object) (amount : ℤ)
    (counts : AList fun _ : Object => ℤ) (object : Object) :
    ((addCounts interfaces amount counts).lookup object).getD 0 =
      (counts.lookup object).getD 0 + interfaces.count object * amount := by
  induction interfaces generalizing counts with
  | nil => simp [addCounts]
  | cons interface rest ih =>
    rw [addCounts, List.foldl_cons, ← addCounts, ih, List.count_cons]
    by_cases h : object = interface
    · rw [h, AList.lookup_insert, Option.getD_some, beq_self_eq_true, if_pos rfl]
      push_cast
      ring
    · rw [AList.lookup_insert_ne h, if_neg (by simpa using Ne.symm h), add_zero]

theorem nodup_getInterfaces (session : Session) (T : Interface) :
    (session.getInterfaces T).Nodup := by
  unfold Session.getInterfaces
  rcases T with _ | _ <;> rcases session.contextSource with _ | _ <;>
    simp [Interface.ofProfiler, Interface.ofData, Interface.ofContextSource]

theorem mem_users {m : SessionManager} {T : Interface} {object : Object} {sessionId : ℕ} :
    sessionId ∈ m.users T object ↔ m.Uses T object sessionId := by
  unfold SessionManager.users
  rw [Finset.mem_filter, List.mem_toFinset, ← AList.mem_keys, and_iff_right_iff_imp]
  rintro ⟨-, session, h, -⟩
  exact AList.lookup_isSome.mp (Option.isSome_of_mem h)

theorem uses_switch_self (h : session ∈ m.sessions.lookup sessionId) (active : Bool)
    (T : Interface) (object : Object) : (m.switch sessionId session active).Uses T object sessionId ↔
      active = true ∧ object ∈ session.getInterfaces T := by
  unfold SessionManager.Uses
  rw [isActive_switch, if_pos rfl]
  change _ ∧ (∃ other ∈ m.sessions.lookup sessionId, _) ↔ _
  rw [Option.mem_def.mp h]
  simp

theorem uses_switch_of_ne {other : ℕ} (hne : other ≠ sessionId) (active : Bool) (T : Interface)
    (object : Object) : (m.switch sessionId session active).Uses T object other ↔
      m.Uses T object other := by
  unfold SessionManager.Uses
  rw [isActive_switch, if_neg hne]
  rfl

theorem card_users_switch (h : session ∈ m.sessions.lookup sessionId) (active : Bool)
    (hactive : m.isActive sessionId = !active) (T : Interface) (object : Object) :
    (((m.switch sessionId session active).users T object).card : ℤ) =
      (m.users T object).card +
        (session.getInterfaces T).count object * (if active then 1 else -1) := by
  have hself : m.Uses T object sessionId ↔
      active = false ∧ object ∈ session.getInterfaces T := by
    unfold SessionManager.Uses
    rw [hactive, Option.mem_def.mp h]
    simp
  have hother (other : ℕ) (hne : other ≠ sessionId) :
      (m.switch sessionId session active).Uses T object other ↔ m.Uses T object other :=
    uses_switch_of_ne hne active T object
  rw [(nodup_getInterfaces session T).count]
  by_cases hmem : object ∈ session.getInterfaces T
  · rw [if_pos hmem, Nat.cast_one, one_mul]
    cases active with
    | true =>
      have husers : (m.switch sessionId session true).users T object =
          insert sessionId (m.users T object) := by
        ext other
        rw [Finset.mem_insert, mem_users, mem_users]
        by_cases hne : other = sessionId
        · rw [hne, uses_switch_self h]
          simp [hmem]
        · rw [hother other hne]
          simp [hne]
      have hnew : sessionId ∉ m.users T object := by
        rw [mem_users, hself]
        simp
      rw [husers, Finset.card_insert_of_notMem hnew, if_pos rfl]
      push_cast
      rfl
    | false =>
      have husers : m.users T object =
          insert sessionId ((m.switch sessionId session false).users T object) := by
        ext other
        rw [Finset.mem_insert, mem_users, mem_users]
        by_cases hne : other = sessionId
        · rw [hne, hself]
          simp [hmem]
        · rw [hother other hne]
          simp [hne]
      have hgone : sessionId ∉ (m.switch sessionId session false).users T object := by
        rw [mem_users, uses_switch_self h]
        simp
      rw [husers, Finset.card_insert_of_notMem hgone, if_neg Bool.false_ne_true]
      push_cast
      ring
  · have husers : (m.switch sessionId session active).users T object = m.users T object := by
      ext other
      rw [mem_users, mem_users]
      by_cases hne : other = sessionId
      · rw [hne, uses_switch_self h, hself]
        simp [hmem]
      · exact hother other hne
    rw [husers, if_neg hmem, Nat.cast_zero, zero_mul, add_zero]

end Switch

section Steps

variable {m : SessionManager} {sessionId : ℕ} {session : Session}

theorem Invariant.switch (hinv : Invariant m) (h : session ∈ m.sessions.lookup sessionId)
    {active : Bool} (hactive : m.isActive sessionId = !active) :
    Invariant (m.switch sessionId session active) where
  paths := hinv.paths
  used := hinv.used
  active other hother := by
    rw [isActive_switch] at hother
    split_ifs at hother with heq
    · rw [heq]
      exact AList.lookup_isSome.mp (Option.isSome_of_mem h)
    · exact hinv.active other hother
  counts T object := by
    rw [card_users_switch h active hactive, ← hinv.counts T object]
    exact lookup_addCounts _ _ _ object

theorem Invariant.of_isActive {m' : SessionManager} (hinv : Invariant m)
    (hnext : m'.nextSessionId = m.nextSessionId) (hpaths : m'.sessionPaths = m.sessionPaths)
    (hsessions : m'.sessions = m.sessions) (hcounts : m'.interfaceCounts = m.interfaceCounts)
    (hactive : ∀ other, m'.isActive other = m.isActive other) : Invariant m' where
  paths := by
    rw [hpaths, hsessions]
    exact hinv.paths
  used := by
    rw [hsessions, hnext]
    exact hinv.used
  active other := by
    rw [hactive, hsessions]
    exact hinv.active other
  counts T object := by
    have husers : m'.users T object = m.users T object := by
      ext other
      rw [mem_users, mem_users, SessionManager.Uses, SessionManager.Uses, hactive, hsessions]
    rw [hcounts, husers]
    exact hinv.counts T object

theorem touch_fields (m : SessionManager) (sessionId : ℕ) :
    (m.touch sessionId).nextSessionId = m.nextSessionId ∧
      (m.touch sessionId).sessionPaths = m.sessionPaths ∧
      (m.touch sessionId).sessions = m.sessions ∧
      (m.touch sessionId).interfaceCounts = m.interfaceCounts := by
  unfold SessionManager.touch
  split_ifs <;> exact ⟨rfl, rfl, rfl, rfl⟩

theorem Invariant.touch (hinv : Invariant m) (sessionId : ℕ) : Invariant (m.touch sessionId) := by
  obtain ⟨hnext, hpaths, hsessions, hcounts⟩ := touch_fields m sessionId
  exact hinv.of_isActive hnext hpaths hsessions hcounts (isActive_touch m sessionId)

def SessionManager.removed (m : SessionManager) (sessionId : ℕ) (session : Session) :
    SessionManager :=
  { m with
    sessionPaths := m.sessionPaths.erase session.path
    sessions := m.sessions.erase sessionId }

theorem Invariant.removed (hinv : Invariant m) (h : session ∈ m.sessions.lookup sessionId)
    (hactive : m.isActive sessionId = false) : Invariant (m.removed sessionId session) where
  paths path other := by
    change other ∈ (m.sessionPaths.erase session.path).lookup path ↔
      ∃ s ∈ (m.sessions.erase sessionId).lookup other, s.path = path
    have hown := (hinv.paths session.path sessionId).mpr ⟨session, h, rfl⟩
    by_cases hpath : path = session.path
    · subst hpath
      rw [AList.lookup_erase]
      refine iff_of_false (by simp) ?_
      rintro ⟨s, hs, hspath⟩
      by_cases hother : other = sessionId
      · rw [hother, AList.lookup_erase] at hs
        simp at hs
      · rw [AList.lookup_erase_ne hother] at hs
        have hlookup := (hinv.paths session.path other).mpr ⟨s, hs, hspath⟩
        exact hother (Option.mem_unique hlookup hown)
    · rw [AList.lookup_erase_ne hpath, hinv.paths]
      by_cases hother : other = sessionId
      · subst hother
        rw [AList.lookup_erase]
        refine iff_of_false ?_ (by simp)
        rintro ⟨s, hs, hspath⟩
        exact hpath (by rw [← hspath, Option.mem_unique hs h])
      · rw [AList.lookup_erase_ne hother]
  used other hother := hinv.used other (AList.mem_erase.mp hother).2
  active other hother := by
    refine AList.mem_erase.mpr ⟨?_, hinv.active other hother⟩
    rintro rfl
    rw [show m.isActive other = true from hother] at hactive
    exact Bool.noConfusion hactive
  counts T object := by
    have husers : (m.removed sessionId session).users T object = m.users T object := by
      ext other
      rw [mem_users, mem_users]
      unfold SessionManager.Uses
      change m.isActive other = true ∧
        (∃ s ∈ (m.sessions.erase sessionId).lookup other, _) ↔ _
      by_cases hother : other = sessionId
      · rw [hother, hactive]
        simp
      · rw [AList.lookup_erase_ne hother]
    rw [husers]
    exact hinv.counts T object

theorem Invariant.added (hinv : Invariant m) (hpath : m.sessionPaths.lookup session.path = none) :
    Invariant { m with
      nextSessionId := m.nextSessionId + 1
      sessionPaths := m.sessionPaths.insert session.path m.nextSessionId
      sessions := m.sessions.insert m.nextSessionId session } where
  paths path other := by
    change other ∈ (m.sessionPaths.insert session.path m.nextSessionId).lookup path ↔
      ∃ s ∈ (m.sessions.insert m.nextSessionId session).lookup other, s.path = path
    have hnew : m.sessions.lookup m.nextSessionId = none := by
      rw [AList.lookup_eq_none]
      intro hmem
      exact lt_irrefl _ (hinv.used _ hmem)
    have hold := hinv.paths path other
    by_cases hother : other = m.nextSessionId
    · subst hother
      rw [hnew] at hold
      rw [AList.lookup_insert]
      by_cases hp : path = session.path
      · rw [hp, AList.lookup_insert]
        simp
      · rw [AList.lookup_insert_ne hp, hold]
        simp [Ne.symm hp]
    · rw [AList.lookup_insert_ne hother, ← hold]
      by_cases hp : path = session.path
      · rw [hp, AList.lookup_insert, hpath]
        simp [Ne.symm hother]
      · rw [AList.lookup_insert_ne hp]
  used other hother := by
    rcases AList.mem_insert _ |>.mp hother with heq | hmem
    · rw [heq]
      exact Nat.lt_succ_self _
    · exact (hinv.used other hmem).trans (Nat.lt_succ_self _)
  active other hother := AList.mem_insert _ |>.mpr (.inr (hinv.active other hother))
  counts T object := by
    rw [hinv.counts T object]
    congr 2
    ext other
    rw [mem_users, mem_users]
    unfold SessionManager.Uses
    change _ ↔ m.isActive other = true ∧
      ∃ s ∈ (m.sessions.insert m.nextSessionId session).lookup other, _
    by_cases hactive : m.isActive other = true
    · have hne : other ≠ m.nextSessionId := (hinv.used other (hinv.active other hactive)).ne
      rw [AList.lookup_insert_ne hne]
    · simp [hactive]

end Steps

end TritonCpu.Proton
