import Mathlib.Data.Finset.Card
import Mathlib.Data.List.AList

/-!
# The profiler's session registry

SessionManager keeps five maps: the id of the session of each path, whether a
session is active, the sessions, and for the scope and the op interfaces how
many active sessions use each. A call that throws leaves the maps as they were
when it threw.
-/

set_option autoImplicit false

namespace TritonCpu.Proton

/-- The profilers; each is one object that all its sessions share. -/
inductive Profiler where
  | cupti
  | roctracer
  deriving DecidableEq

inductive ContextSource where
  | shadow
  | python
  deriving DecidableEq

inductive OutputFormat where
  | hatchet
  | count
  deriving DecidableEq

/-- The interfaces whose users SessionManager counts. -/
inductive Interface where
  | scope
  | op
  deriving DecidableEq

/-- An object that may have an interface: a profiler, or what lies at an address of the heap. -/
inductive Object where
  | profiler (profiler : Profiler)
  | heap (address : ℕ)
  deriving DecidableEq

structure Session where
  path : String
  id : ℕ
  profiler : Profiler
  contextSource : ContextSource
  contextSourceAddress : ℕ
  dataAddress : ℕ
  deriving DecidableEq

/-- GPUProfiler and Data are OpInterfaces. -/
def Interface.ofProfiler : Interface → Bool
  | .scope => false
  | .op => true

def Interface.ofData : Interface → Bool
  | .scope => false
  | .op => true

/-- ShadowContextSource is a ScopeInterface. -/
def Interface.ofContextSource : Interface → ContextSource → Bool
  | .scope, .shadow => true
  | _, _ => false

/-- `getInterfaces` -/
def Session.getInterfaces (session : Session) (T : Interface) : List Object :=
  (if T.ofProfiler then [.profiler session.profiler] else []) ++
    (if T.ofData then [.heap session.dataAddress] else []) ++
    (if T.ofContextSource session.contextSource then [.heap session.contextSourceAddress] else [])

structure SessionManager where
  nextSessionId : ℕ
  sessionPaths : AList fun _ : String => ℕ
  activeSessions : AList fun _ : ℕ => Bool
  sessions : AList fun _ : ℕ => Session
  /-- `scopeInterfaceCounts` and `opInterfaceCounts` -/
  interfaceCounts : Interface → AList fun _ : Object => ℤ

def SessionManager.new : SessionManager := ⟨0, ∅, ∅, ∅, fun _ => ∅⟩

/-- A call returns or throws, and leaves the manager as it was at that moment. -/
abbrev Action := EStateM String SessionManager

def getProfiler (profilerName : String) : Action Profiler :=
  if profilerName.toLower = "cupti" then pure .cupti
  else if profilerName.toLower = "cupti_pcsampling" then pure .cupti
  else if profilerName.toLower = "roctracer" then pure .roctracer
  else throw ("Unknown profiler: " ++ profilerName)

/-- `makeData`: all data is TreeData. -/
def makeData (dataName : String) : Action Unit :=
  if dataName.toLower = "tree" then pure ()
  else throw ("Unknown data: " ++ dataName)

def makeContextSource (contextSourceName : String) : Action ContextSource :=
  if contextSourceName.toLower = "shadow" then pure .shadow
  else if contextSourceName.toLower = "python" then pure .python
  else throw ("Unknown context source: " ++ contextSourceName)

def throwIfSessionNotInitialized (sessionId : ℕ) : Action Unit := do
  if sessionId ∈ (← get).sessions then pure ()
  else throw ("Session has not been initialized: " ++ toString sessionId)

def outputFormatToString : OutputFormat → Action String
  | .hatchet => pure "hatchet"
  | .count => throw "Unknown output format: 1"

def parseOutputFormat (outputFormat : String) : Action OutputFormat :=
  if outputFormat.toLower = "hatchet" then pure .hatchet
  else throw ("Unknown output format: " ++ outputFormat)

/-- `Data::dump`: the data of a session with a path of its own goes to a file named after the
format. -/
def dump (path : String) (outputFormat : OutputFormat) : Action Unit :=
  if path = "" ∨ path = "-" then pure ()
  else do
    let _ ← outputFormatToString outputFormat
    pure ()

/-- `makeSession`, with the addresses at which the context source and the data come to lie. -/
def makeSession (id : ℕ) (path profilerName contextSourceName dataName : String)
    (contextSourceAddress dataAddress : ℕ) : Action Session := do
  let profiler ← getProfiler profilerName
  let contextSource ← makeContextSource contextSourceName
  makeData dataName
  pure ⟨path, id, profiler, contextSource, contextSourceAddress, dataAddress⟩

/-- `activeSessions[sessionId]`, which enters `false` for an id that it does not hold. -/
def activeSession (sessionId : ℕ) : Action Bool := do
  match (← get).activeSessions.lookup sessionId with
  | some active => pure active
  | none =>
    modify fun m => { m with activeSessions := m.activeSessions.insert sessionId false }
    pure false

def setActive (sessionId : ℕ) (active : Bool) : Action Unit :=
  modify fun m => { m with activeSessions := m.activeSessions.insert sessionId active }

/-- `interfaceCounts[interface] += by` for each of the interfaces. -/
def addCounts (interfaces : List Object) (amount : ℤ) (counts : AList fun _ : Object => ℤ) :
    AList fun _ : Object => ℤ :=
  interfaces.foldl (fun counts interface =>
    counts.insert interface ((counts.lookup interface).getD 0 + amount)) counts

def countInterfaces (T : Interface) (sessionId : ℕ) (amount : ℤ) : Action Unit :=
  modify fun m =>
    match m.sessions.lookup sessionId with
    | some session => { m with
        interfaceCounts := Function.update m.interfaceCounts T
          (addCounts (session.getInterfaces T) amount (m.interfaceCounts T)) }
    | none => m

def registerInterface (T : Interface) (sessionId : ℕ) : Action Unit :=
  countInterfaces T sessionId 1

def unregisterInterface (T : Interface) (sessionId : ℕ) : Action Unit :=
  countInterfaces T sessionId (-1)

def activateSessionImpl (sessionId : ℕ) : Action Unit := do
  throwIfSessionNotInitialized sessionId
  if ← activeSession sessionId then pure ()
  else
    setActive sessionId true
    registerInterface .scope sessionId
    registerInterface .op sessionId

def deActivateSessionImpl (sessionId : ℕ) : Action Unit := do
  throwIfSessionNotInitialized sessionId
  if !(← activeSession sessionId) then pure ()
  else
    setActive sessionId false
    unregisterInterface .scope sessionId
    unregisterInterface .op sessionId

def removeSession (sessionId : ℕ) : Action Unit :=
  modify fun m =>
    match m.sessions.lookup sessionId with
    | some session => { m with
        sessionPaths := m.sessionPaths.erase session.path
        sessions := m.sessions.erase sessionId }
    | none => m

/-- `addSession`: the right side of `sessions[sessionId] = makeSession(..)` comes first. -/
def addSession (path profilerName contextSourceName dataName : String)
    (contextSourceAddress dataAddress : ℕ) : Action ℕ := do
  match (← get).sessionPaths.lookup path with
  | some sessionId =>
    activateSessionImpl sessionId
    pure sessionId
  | none =>
    let sessionId := (← get).nextSessionId
    modify fun m => { m with nextSessionId := m.nextSessionId + 1 }
    modify fun m => { m with sessionPaths := m.sessionPaths.insert path sessionId }
    let session ← makeSession sessionId path profilerName contextSourceName dataName
      contextSourceAddress dataAddress
    modify fun m => { m with sessions := m.sessions.insert sessionId session }
    pure sessionId

/-- `sessions[sessionId]->finalize(outputFormat)` -/
def finalize (sessionId : ℕ) (outputFormat : OutputFormat) : Action Unit := do
  match (← get).sessions.lookup sessionId with
  | some session => dump session.path outputFormat
  | none => pure ()

def finalizeSession (sessionId : ℕ) (outputFormat : OutputFormat) : Action Unit := do
  if sessionId ∈ (← get).sessions then
    deActivateSessionImpl sessionId
    finalize sessionId outputFormat
    removeSession sessionId
  else pure ()

/-- `finalizeAllSessions`; a map is visited in the order of its keys. -/
def finalizeAllSessions (outputFormat : OutputFormat) : Action Unit := do
  let sessionIds := (← get).sessions.keys.mergeSort (· ≤ ·)
  forM sessionIds fun sessionId => do
    deActivateSessionImpl sessionId
    finalize sessionId outputFormat
  forM sessionIds removeSession

/-- The calls of the Python module; it reads the name of an output format before it calls. -/
inductive Call where
  | addSession (path profilerName contextSourceName dataName : String)
      (contextSourceAddress dataAddress : ℕ)
  | activateSession (sessionId : ℕ)
  | deactivateSession (sessionId : ℕ)
  | finalizeSession (sessionId : ℕ) (outputFormat : String)
  | finalizeAllSessions (outputFormat : String)

def Call.action : Call → Action Unit
  | .addSession path profilerName contextSourceName dataName ca da => do
    let _ ← Proton.addSession path profilerName contextSourceName dataName ca da
    pure ()
  | .activateSession sessionId => activateSessionImpl sessionId
  | .deactivateSession sessionId => deActivateSessionImpl sessionId
  | .finalizeSession sessionId outputFormat => do
    Proton.finalizeSession sessionId (← parseOutputFormat outputFormat)
  | .finalizeAllSessions outputFormat => do
    Proton.finalizeAllSessions (← parseOutputFormat outputFormat)

end TritonCpu.Proton
