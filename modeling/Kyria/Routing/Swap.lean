import Kyria.Lib.Runs
import Kyria.Replies
import Kyria.Routing.Agreement

/-!
A request while the ring changes (`Handler.Handle`, `Router.rebuild`).

The ring is an atomic pointer, and a request loads it up to three times: to see whether the key
is its own, to name the owner, and to list the replicas. Between two loads another ring may be
published. A call is a transition system whose actions are the loads and the publications.
-/

namespace Kyria.Server

open Kyria.Lib.Cursor Kyria.Lib.Runs Kyria.Text Kyria.Protocol Kyria.Routing Kyria.Sha256
open Kyria.Store Kyria.Version Kyria.Coordinator

variable {σ : Type} (H : Hash)

/-- The handler and its coordinator share one router. -/
def Handler.withRing (h : Handler σ) (ring : Ring) : Handler σ :=
  { h with
    router := h.router.map fun r => { r with ring }
    coordinator := h.coordinator.map fun c => { c with router := { c.router with ring } } }

@[simp] lemma Handler.withRing_withRing (h : Handler σ) (ring ring' : Ring) :
    (h.withRing ring).withRing ring' = h.withRing ring' := by
  simp [Handler.withRing, Function.comp_def]

/-- The replica list that a coordinated command loads; a write that the own store refuses is
answered before. -/
def Coordinator.replicasFor (c : Coordinator) (m : MapStore σ) (amb : Ambient) (cmd : Command) :
    Option (List Bytes) :=
  let key := cmd.args.getD 0 []
  let replicas := c.router.owners key c.n
  if toUpper cmd.name = ascii "SET" then
    ((writeLocal m amb.env c.self key (cmd.args.getD 1 [])).1.toOption).map fun _ => replicas
  else if toUpper cmd.name = ascii "DEL" then
    ((deleteLocal m amb.env c.self key amb.env.now).1.toOption).map fun _ => replicas
  else if toUpper cmd.name = ascii "GET" then some replicas
  else none

/-- The peers a coordinated command sends to; a read that its own copy satisfies asks nobody. -/
def Coordinator.contacted (c : Coordinator) (cmd : Command) (replicas : List Bytes) : List Bytes :=
  if toUpper cmd.name = ascii "GET" ∧ min c.r replicas.length ≤ 1 then []
  else peersExcept replicas c.self

/-- What a call comes to: the reply, the replica list it used, if any, and the peers it sent to. -/
structure Outcome where
  reply : Option Value
  replicas : Option (List Bytes) := none
  peers : List Bytes := []

/-- The part of `Handle` after the routing. -/
def serve (h : Handler σ) (amb : Ambient) (cmd : Command) (spec : CommandSpec) : Outcome :=
  match coordinatorFor h spec with
  | some c =>
    let replicas := c.replicasFor h.store amb cmd
    { reply := (c.coordinate h.store amb cmd).1
      replicas
      peers := replicas.elim [] (c.contacted cmd) }
  | none => { reply := (runVerb H h amb cmd.args spec.run).1 }

def moved (owner : Bytes) : Outcome := { reply := some (.error (ascii "MOVED " ++ owner)) }

/-- A call served under the one ring of the handler. -/
def outcome (h : Handler σ) (amb : Ambient) (cmd : Command) (spec : CommandSpec) : Outcome :=
  match redirect h spec (cmd.args.getD 0 []) with
  | some owner => moved owner
  | none => serve H h amb cmd spec

lemma handle_fst_eq {h : Handler σ} {amb : Ambient} {cmd : Command} {spec : CommandSpec}
    (hspec : commands (toUpper cmd.name) = some spec) (hmin : spec.minArgs ≤ cmd.args.length)
    (hmax : cmd.args.length ≤ spec.maxArgs) :
    (handle H h amb cmd).1 = (outcome H h amb cmd spec).reply := by
  have hargs : ¬ (cmd.args.length < spec.minArgs ∨ cmd.args.length > spec.maxArgs) := by omega
  simp only [handle, hspec, if_neg hargs, outcome]
  rcases redirect h spec (cmd.args.getD 0 []) with _ | owner
  · simp only [serve]
    rcases coordinatorFor h spec with _ | c <;> rfl
  · rfl

/-! ### The call as a transition system -/

inductive Phase
  | routing
  | redirecting
  | serving
  | done (o : Outcome)

/-- A call in progress; `seen` are the rings that have been current so far. -/
structure Call (σ : Type) where
  handler : Handler σ
  seen : List Ring
  phase : Phase

inductive LoadAction
  | publish (s : SortFunc) (alive : List Bytes)
  | isLocal
  | owner
  | serve

/-- One load of the call, or one publication, of a ring that self is on. -/
def Call.step (replicas : ℕ) (amb : Ambient) (cmd : Command) (spec : CommandSpec) (c : Call σ)
    (a : LoadAction) : Option (Call σ) :=
  let key := cmd.args.getD 0 []
  match c.handler.router with
  | none => none
  | some r =>
    match a, c.phase with
    | .publish s alive, _ =>
      if r.self ∈ alive then
        let ring := rebuild replicas s alive
        some { c with handler := c.handler.withRing ring, seen := c.seen ++ [ring] }
      else none
    | .isLocal, .routing =>
      some { c with phase := if r.isLocal key then .serving else .redirecting }
    | .owner, .redirecting =>
      some { c with phase := (r.owner key).elim .serving fun owner => .done (moved owner) }
    | .serve, .serving => some { c with phase := .done (Server.serve H c.handler amb cmd spec) }
    | _, _ => none

/-- A call begins under the ring that is current. -/
def Call.start (h : Handler σ) (ring : Ring) : Call σ :=
  { handler := h.withRing ring, seen := [ring], phase := .routing }

/-- The ring takes the key to be self's. -/
def Owns (self : Bytes) (ring : Ring) (key : Bytes) : Prop := ring.get key = some self

instance (self : Bytes) (ring : Ring) (key : Bytes) : Decidable (Owns self ring key) :=
  inferInstanceAs (Decidable (_ = _))

/-- No ring published between the first load and the last changes whether the key is self's. -/
def Steady (replicas : ℕ) (key : Bytes) (c : Call σ) (a : LoadAction) : Prop :=
  ∀ s alive, a = .publish s alive → ∀ r ∈ c.handler.router,
    (c.phase matches .redirecting | .serving) →
    (Owns r.self (rebuild replicas s alive) key ↔ Owns r.self r.ring key)

lemma serve_not_moved {name : Bytes} (hname : name ∈ clientCommands) {spec : CommandSpec}
    (hspec : commands name = some spec) (h : Handler σ) (amb : Ambient) (cmd : Command)
    (owner : Bytes) : (serve H h amb cmd spec).reply ≠ some (.error (ascii "MOVED " ++ owner)) := by
  have hall : ∀ name ∈ clientCommands,
      (commands name).all (fun spec => spec.run ∈ [.get, .set, .del]) = true := by
    decide +kernel
  have hrun : spec.run ∈ [Verb.get, .set, .del] := by simpa [hspec] using hall name hname
  intro hreply
  refine Plain.not_moved ?_ owner rfl
  unfold serve at hreply
  split at hreply
  · exact Coordinator.plain_coordinate hreply
  · rcases spec with ⟨min, max, cl, run⟩
    simp only [List.mem_cons, List.not_mem_nil, or_false] at hrun
    rcases hrun with rfl | rfl | rfl
    · cases hreply
    · exact Option.some.inj hreply ▸ plain_set h.store amb.env cmd.args
    · cases hreply

/-! ### One ring for the whole call -/

lemma exists_owner_rebuild {replicas : ℕ} (hpos : 0 < replicas) {self : Bytes} {alive : List Bytes}
    (hself : self ∈ alive) (s : SortFunc) (key : Bytes) :
    ∃ owner, (rebuild replicas s alive).get key = some owner ∧
      ∀ n, 1 ≤ n → owner ∈ (rebuild replicas s alive).getN key n := by
  have hmem : (⟨hashStr (self ++ [35] ++ itoa 0), self⟩ : Point) ∈
      (rebuild replicas s alive).points := mem_rebuild_iff.mpr ⟨hself, 0, hpos, rfl⟩
  obtain ⟨p, -, hget, hgetN⟩ := exists_owner (List.length_pos_of_mem hmem).ne' key
  refine ⟨p.node, hget, fun n hn => ?_⟩
  obtain ⟨rest, hrest⟩ := hgetN n hn
  exact hrest ▸ List.mem_cons_self

/-- The outcome is one that a single ring, current at some moment, would have given: never a
redirection to oneself, and never a quorum among replicas without self. -/
def OneRing (h : Handler σ) (self : Bytes) (amb : Ambient) (cmd : Command) (spec : CommandSpec)
    (seen : List Ring) (o : Outcome) : Prop :=
  (∃ ring ∈ seen, o.reply = (handle H (h.withRing ring) amb cmd).1 ∧
    o.peers = (outcome H (h.withRing ring) amb cmd spec).peers) ∧
  o.reply ≠ some (.error (ascii "MOVED " ++ self)) ∧
  ∀ replicas ∈ o.replicas, self ∈ replicas

/-- A clustered handler: all parts of it go by one ID, and keys have at least one replica. -/
structure Clustered (h : Handler σ) (id : Bytes) : Prop where
  router : ∃ r, h.router = some r ∧ r.self = id
  coordinator : ∀ c ∈ h.coordinator, c.self = id ∧ 1 ≤ c.n

section OneCall

variable {H} {h : Handler σ} {self : Bytes} (hh : Clustered h self) {cmd : Command}
  {spec : CommandSpec} (hname : toUpper cmd.name ∈ clientCommands)
  (hspec : commands (toUpper cmd.name) = some spec) {amb : Ambient}

include hh in
lemma Clustered.withRing_router (ring : Ring) :
    (h.withRing ring).router = some { self, ring } := by
  obtain ⟨r, hr, rfl⟩ := hh.router
  simp [Handler.withRing, hr]

include hh hname hspec

lemma redirect_withRing (ring : Ring) (key : Bytes) :
    redirect (h.withRing ring) spec key = if Owns self ring key then none else ring.get key := by
  have hcl := clusteredOp_of_mem hname hspec
  by_cases howns : Owns self ring key
  · have hlocal : Router.isLocal { self, ring } key = true := decide_eq_true howns
    simp only [redirect, hh.withRing_router, hcl, hlocal, if_pos howns, Bool.not_true,
      Bool.and_false, Bool.false_eq_true, if_false]
  · have hlocal : Router.isLocal { self, ring } key = false := decide_eq_false howns
    simp only [redirect, hh.withRing_router, hcl, hlocal, if_neg howns, Bool.not_false,
      Bool.and_self, if_true]
    rfl

lemma oneRing_serve {ring : Ring} {seen : List Ring} (hmem : ring ∈ seen)
    (hmin : spec.minArgs ≤ cmd.args.length) (hmax : cmd.args.length ≤ spec.maxArgs)
    (howns : Owns self ring (cmd.args.getD 0 []))
    (hlist : ∀ n, 1 ≤ n → self ∈ ring.getN (cmd.args.getD 0 []) n) :
    OneRing H h self amb cmd spec seen (serve H (h.withRing ring) amb cmd spec) := by
  have hout : outcome H (h.withRing ring) amb cmd spec =
      serve H (h.withRing ring) amb cmd spec := by
    simp only [outcome, redirect_withRing hh hname hspec, if_pos howns]
  refine ⟨⟨ring, hmem, ?_, by rw [hout]⟩, serve_not_moved H hname hspec _ amb cmd self, ?_⟩
  · rw [handle_fst_eq H hspec hmin hmax, hout]
  · intro replicas hrep
    unfold serve at hrep
    split at hrep
    · rename_i c hc
      -- the coordinator asks the ring of the handler
      have hc : (h.withRing ring).coordinator = some c := by
        unfold coordinatorFor at hc
        split at hc
        · exact hc
        · cases hc
      obtain ⟨c', hc', rfl⟩ := Option.map_eq_some_iff.mp hc
      have hin := hlist c'.n (hh.coordinator c' hc').2
      simp only [Coordinator.replicasFor] at hrep
      split_ifs at hrep
      · obtain ⟨-, -, rfl⟩ := Option.map_eq_some_iff.mp hrep
        exact hin
      · obtain ⟨-, -, rfl⟩ := Option.map_eq_some_iff.mp hrep
        exact hin
      · cases hrep
        exact hin
      · cases hrep
    · cases hrep

lemma oneRing_moved {ring : Ring} {seen : List Ring} (hmem : ring ∈ seen)
    (hmin : spec.minArgs ≤ cmd.args.length) (hmax : cmd.args.length ≤ spec.maxArgs)
    {owner : Bytes} (hget : ring.get (cmd.args.getD 0 []) = some owner) (hne : owner ≠ self) :
    OneRing H h self amb cmd spec seen (moved owner) := by
  have howns : ¬ Owns self ring (cmd.args.getD 0 []) := by
    intro heq
    exact hne (Option.some.inj (hget.symm.trans heq))
  have hout : outcome H (h.withRing ring) amb cmd spec = moved owner := by
    simp only [outcome, redirect_withRing hh hname hspec, if_neg howns, hget]
  refine ⟨⟨ring, hmem, ?_, by rw [hout]⟩, ?_, ?_⟩
  · rw [handle_fst_eq H hspec hmin hmax, hout]
  · intro heq
    simp only [moved, Option.some.injEq, Value.error.injEq] at heq
    exact hne (List.append_cancel_left heq)
  · intro replicas hrep
    cases hrep

end OneCall

/-- Where a call is, with the ring that is current. -/
def Call.Inv (h : Handler σ) (self : Bytes) (amb : Ambient) (cmd : Command) (spec : CommandSpec)
    (c : Call σ) : Prop :=
  ∃ ring ∈ c.seen, c.handler = h.withRing ring ∧
    (∃ owner, ring.get (cmd.args.getD 0 []) = some owner ∧
      ∀ n, 1 ≤ n → owner ∈ ring.getN (cmd.args.getD 0 []) n) ∧
    match c.phase with
    | .routing => True
    | .redirecting => ¬ Owns self ring (cmd.args.getD 0 [])
    | .serving => Owns self ring (cmd.args.getD 0 [])
    | .done o => OneRing H h self amb cmd spec c.seen o

lemma Call.inv_publish {h : Handler σ} {self : Bytes} (hh : Clustered h self) {cmd : Command}
    {spec : CommandSpec} {replicas : ℕ} (hpos : 0 < replicas) {amb : Ambient} {c : Call σ}
    (hinv : Call.Inv H h self amb cmd spec c) {s : SortFunc} {alive : List Bytes}
    (hself : self ∈ alive) (hok : Steady replicas (cmd.args.getD 0 []) c (.publish s alive)) :
    Call.Inv H h self amb cmd spec
      { c with
        handler := c.handler.withRing (rebuild replicas s alive)
        seen := c.seen ++ [rebuild replicas s alive] } := by
  obtain ⟨ring, -, hhandler, -, hphase⟩ := hinv
  have hrouter : c.handler.router = some { self, ring } := hhandler ▸ hh.withRing_router ring
  refine ⟨rebuild replicas s alive, by simp, by simp [hhandler],
    exists_owner_rebuild hpos hself s _, ?_⟩
  have hsteady := hok s alive rfl { self, ring } hrouter
  cases hp : c.phase with
  | routing => trivial
  | redirecting =>
    rw [hp] at hphase hsteady
    exact fun howns => hphase ((hsteady rfl).mp howns)
  | serving =>
    rw [hp] at hphase hsteady
    exact (hsteady rfl).mpr hphase
  | done o =>
    rw [hp] at hphase
    obtain ⟨⟨r, hr, hreply⟩, hrest⟩ := hphase
    exact ⟨⟨r, List.mem_append_left _ hr, hreply⟩, hrest⟩

/-- **One step** of a call that no publication unsettles. -/
lemma Call.inv_step {h : Handler σ} {self : Bytes} (hh : Clustered h self) {cmd : Command}
    {spec : CommandSpec} (hname : toUpper cmd.name ∈ clientCommands)
    (hspec : commands (toUpper cmd.name) = some spec) (hmin : spec.minArgs ≤ cmd.args.length)
    (hmax : cmd.args.length ≤ spec.maxArgs) {replicas : ℕ} (hpos : 0 < replicas) {amb : Ambient}
    {c c' : Call σ} {a : LoadAction} (hinv : Call.Inv H h self amb cmd spec c)
    (hok : Steady replicas (cmd.args.getD 0 []) c a)
    (hstep : Call.step H replicas amb cmd spec c a = some c') :
    Call.Inv H h self amb cmd spec c' := by
  have hinv' := hinv
  obtain ⟨ring, hmem, hhandler, ⟨owner, hget, hlist⟩, hphase⟩ := hinv
  have hrouter : c.handler.router = some { self, ring } := hhandler ▸ hh.withRing_router ring
  cases a with
  | publish s alive =>
    simp only [Call.step, hrouter] at hstep
    split_ifs at hstep with hself
    cases hstep
    exact Call.inv_publish H hh hpos hinv' hself hok
  | isLocal =>
    cases hp : c.phase with
    | routing =>
      simp only [Call.step, hrouter, hp, Option.some.injEq] at hstep
      cases hstep
      refine ⟨ring, hmem, hhandler, ⟨owner, hget, hlist⟩, ?_⟩
      by_cases howns : Owns self ring (cmd.args.getD 0 [])
      · have hlocal : Router.isLocal { self, ring } (cmd.args.getD 0 []) = true :=
          decide_eq_true howns
        simp only [hlocal, if_true]
        exact howns
      · have hlocal : Router.isLocal { self, ring } (cmd.args.getD 0 []) = false :=
          decide_eq_false howns
        simp only [hlocal, Bool.false_eq_true, if_false]
        exact howns
    | redirecting | serving | done => simp [Call.step, hrouter, hp] at hstep
  | owner =>
    cases hp : c.phase with
    | redirecting =>
      rw [hp] at hphase
      have howner : Router.owner { self, ring } (cmd.args.getD 0 []) = some owner := hget
      simp only [Call.step, hrouter, hp, howner, Option.elim_some, Option.some.injEq] at hstep
      cases hstep
      refine ⟨ring, hmem, hhandler, ⟨owner, hget, hlist⟩, ?_⟩
      exact oneRing_moved hh hname hspec hmem hmin hmax hget fun heq => hphase (heq ▸ hget)
    | routing | serving | done => simp [Call.step, hrouter, hp] at hstep
  | serve =>
    cases hp : c.phase with
    | serving =>
      rw [hp] at hphase
      simp only [Call.step, hrouter, hp, Option.some.injEq] at hstep
      cases hstep
      refine ⟨ring, hmem, hhandler, ⟨owner, hget, hlist⟩, ?_⟩
      simp only [hhandler]
      have hself : owner = self := Option.some.inj (hget.symm.trans hphase)
      exact oneRing_serve hh hname hspec hmem hmin hmax hphase fun n hn => hself ▸ hlist n hn
    | routing | redirecting | done => simp [Call.step, hrouter, hp] at hstep

/-- **A call is served under one ring** if no ring published between its loads changes whether
the key is this node's. -/
theorem served_under_one_ring {h : Handler σ} {self : Bytes} (hh : Clustered h self)
    {cmd : Command} {spec : CommandSpec} (hname : toUpper cmd.name ∈ clientCommands)
    (hspec : commands (toUpper cmd.name) = some spec) (hmin : spec.minArgs ≤ cmd.args.length)
    (hmax : cmd.args.length ≤ spec.maxArgs) {replicas : ℕ} (hpos : 0 < replicas)
    {alive : List Bytes} (hself : self ∈ alive) (s : SortFunc) (amb : Ambient) {c : Call σ}
    (hrun : Steps (Call.step H replicas amb cmd spec) (Steady replicas (cmd.args.getD 0 []))
      (Call.start h (rebuild replicas s alive)) c)
    {o : Outcome} (hdone : c.phase = .done o) : OneRing H h self amb cmd spec c.seen o := by
  have hstart : Call.Inv H h self amb cmd spec (Call.start h (rebuild replicas s alive)) :=
    ⟨_, List.mem_singleton_self _, rfl, exists_owner_rebuild hpos hself s _, trivial⟩
  obtain ⟨ring, -, -, -, hphase⟩ := hrun.invariant hstart fun t a u hinv hok hstep =>
    Call.inv_step H hh hname hspec hmin hmax hpos hinv hok hstep
  rwa [hdone] at hphase

/-! ### Two nodes -/

/-- The test of `Steady`. -/
def steady (replicas : ℕ) (key : Bytes) (c : Call σ) : LoadAction → Bool
  | .publish s alive => c.handler.router.all fun r =>
    decide (Owns r.self (rebuild replicas s alive) key ↔ Owns r.self r.ring key)
  | _ => true

lemma steady_of_test {replicas : ℕ} {key : Bytes} {c : Call σ} {a : LoadAction}
    (h : steady replicas key c a = true) : Steady replicas key c a := by
  rintro s alive rfl r hr -
  simp only [steady, Option.mem_def.mp hr, Option.all_some] at h
  exact of_decide_eq_true h

def Phase.outcome? : Phase → Option Outcome
  | .done o => some o
  | _ => none

/-- The second of two nodes, with one replica for every key. -/
def nodeB : Handler Unit where
  store := { state := () }
  router := some { self := ascii "B", ring := newRing 1 }
  coordinator := some
    { self := ascii "B", router := { self := ascii "B", ring := newRing 1 },
      n := 1, r := 1, w := 1 }

lemma clustered_nodeB : Clustered nodeB (ascii "B") where
  router := ⟨_, rfl, rfl⟩
  coordinator c hc := by
    cases hc
    exact ⟨rfl, le_rfl⟩

def bothAlive : List Bytes := [ascii "A", ascii "B"]

/-- A write of a key that belongs to the first node, as long as that one is alive. -/
def setA : Command := ⟨ascii "SET", [ascii "a", ascii "1"]⟩

/-- The write at the second node, by these actions. -/
def runB (check : Call Unit → LoadAction → Bool) (alive : List Bytes) (as : List LoadAction) :
    Option Outcome :=
  (exec (Call.step sha256 1 default setA ⟨2, 4, true, .set⟩) check
    (Call.start nodeB (rebuild 1 SortFunc.insertion alive)) as).bind fun c => c.phase.outcome?

lemma exists_of_runB (check : Call Unit → LoadAction → Bool) {ok : Call Unit → LoadAction → Prop}
    (hok : ∀ c a, check c a = true → ok c a) (alive : List Bytes) (as : List LoadAction)
    (P : Outcome → Bool) (h : (runB check alive as).any P = true) :
    ∃ c o, Steps (Call.step sha256 1 default setA ⟨2, 4, true, .set⟩) ok
      (Call.start nodeB (rebuild 1 SortFunc.insertion alive)) c ∧ c.phase = .done o ∧
      P o = true := by
  obtain ⟨o, ho⟩ : ∃ o, runB check alive as = some o := by
    cases hx : runB check alive as with
    | none => rw [hx] at h; cases h
    | some o => exact ⟨o, rfl⟩
  have hP : P o = true := by rwa [ho] at h
  obtain ⟨c, hc, ho⟩ := Option.bind_eq_some_iff.mp ho
  have hdone : c.phase = .done o := by
    cases hp : c.phase with
    | done o' => rw [hp] at ho; cases ho; rfl
    | _ => rw [hp] at ho; cases ho
  exact ⟨c, o, Steps.of_exec_of_check hc hok, hdone, hP⟩

/-- Both nodes stay alive, and the ring is rebuilt from them in another order. -/
theorem served_under_one_ring_rebuilt :
    ∃ c o, Steps (Call.step sha256 1 default setA ⟨2, 4, true, .set⟩) (Steady 1 (ascii "a"))
      (Call.start nodeB (rebuild 1 SortFunc.insertion bothAlive)) c ∧ c.phase = .done o ∧
      OneRing sha256 nodeB (ascii "B") default setA ⟨2, 4, true, .set⟩ c.seen o := by
  obtain ⟨c, o, hsteps, hdone, -⟩ := exists_of_runB (steady 1 (ascii "a"))
    (fun _ _ => steady_of_test) bothAlive [.isLocal, .publish .insertion bothAlive.reverse, .owner]
    (fun _ => true) (by decide +kernel)
  exact ⟨c, o, hsteps, hdone, served_under_one_ring sha256 clustered_nodeB (by decide +kernel)
    rfl (by decide) (by decide) one_pos (by decide) SortFunc.insertion default hsteps hdone⟩

/-- **Two swaps that no single ring explains.** The first node dies between the load that finds
it to be the owner and the one that names the owner, and the second node sends the client to
itself. It comes up between the load that finds the second node to be the owner and the one that
lists the replicas, and the second node counts its own copy for a quorum of a list it is not on. -/
theorem ring_swap_breaks :
    (∃ c o, Steps (Call.step sha256 1 default setA ⟨2, 4, true, .set⟩) (fun _ _ => True)
      (Call.start nodeB (rebuild 1 SortFunc.insertion bothAlive)) c ∧ c.phase = .done o ∧
      o.reply = some (.error (ascii "MOVED B")) ∧
      ¬ OneRing sha256 nodeB (ascii "B") default setA ⟨2, 4, true, .set⟩ c.seen o) ∧
    ∃ c o, Steps (Call.step sha256 1 default setA ⟨2, 4, true, .set⟩) (fun _ _ => True)
      (Call.start nodeB (rebuild 1 SortFunc.insertion [ascii "B"])) c ∧ c.phase = .done o ∧
      o.replicas = some [ascii "A"] ∧
      ¬ OneRing sha256 nodeB (ascii "B") default setA ⟨2, 4, true, .set⟩ c.seen o := by
  constructor
  · obtain ⟨c, o, hsteps, hdone, ho⟩ := exists_of_runB (fun _ _ => true) (fun _ _ _ => trivial)
      bothAlive [.isLocal, .publish .insertion [ascii "B"], .owner]
      (fun o => decide (o.reply = some (.error (ascii "MOVED B")))) (by decide +kernel)
    have hreply := of_decide_eq_true ho
    exact ⟨c, o, hsteps, hdone, hreply, fun hone => hone.2.1 hreply⟩
  · obtain ⟨c, o, hsteps, hdone, ho⟩ := exists_of_runB (fun _ _ => true) (fun _ _ _ => trivial)
      [ascii "B"] [.isLocal, .publish .insertion bothAlive, .serve]
      (fun o => decide (o.replicas = some [ascii "A"])) (by decide +kernel)
    have hlist := of_decide_eq_true ho
    refine ⟨c, o, hsteps, hdone, hlist, fun hone => ?_⟩
    have hin := hone.2.2 _ hlist
    revert hin
    decide

end Kyria.Server
