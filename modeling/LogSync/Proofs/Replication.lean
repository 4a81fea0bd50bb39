import LogSync.Proofs.Evaluation
import LogSync.Proofs.Runs

/-!
# Replication is exact

A link is brought up to date in many places: when roles are looked up, when the state changes, when
a core is added or announced, and when its peer joins. All of them go through `updateLinks`, so one
relation tells how the links of an engine and the calls on their connections belong together
(`LinkSteps`). A step either evaluates, which makes every link exact, or is quiet, which keeps the
links exact; and in both the calls lead each connection to what its link replicates. By induction
over a run, both ends of every connection agree, and agree with roles and state
(`Run.replication_is_exact`).
-/

namespace LogSync

/-! ## Calls among effects -/

/-- The calls on a connection come in the order in which they were said. -/
theorem callsOn_append (c : Connection) (effects effects' : List Effect) :
    callsOn c (effects ++ effects') = callsOn c effects ++ callsOn c effects' :=
  List.filterMap_append

/-- The calls on a connection are those that are said to it. -/
theorem mem_callsOn {c : Connection} {call : ReplicationCall} {effects : List Effect} :
    call ∈ callsOn c effects ↔ .call c call ∈ effects := by
  unfold callsOn
  rw [List.mem_filterMap]
  constructor
  · rintro ⟨effect, hmem, heq⟩
    cases effect <;> simp only [reduceCtorEq] at heq
    split at heq
    · next hc =>
      cases heq
      exact hc ▸ hmem
    · contradiction
  · exact fun h => ⟨_, h, if_pos rfl⟩

/-- Calls on one connection are none on another. -/
theorem callsOn_map_call (c c' : Connection) (calls : List ReplicationCall) :
    callsOn c (calls.map (.call c')) = if c' = c then calls else [] := by
  have hselect : (calls.filterMap fun call => if c' = c then some call else none)
      = if c' = c then calls else [] := by
    split <;> simp
  unfold callsOn
  rw [List.filterMap_map]
  exact hselect

theorem callsOn_map_answer (c : Connection) (ws : List Waiter) :
    callsOn c (ws.map .answer) = [] := by
  unfold callsOn
  rw [List.filterMap_map]
  exact List.filterMap_eq_nil_iff.2 fun w _ => rfl

/-- On a connection, an update of the links makes the calls of the links it belongs to. -/
theorem callsOn_updateLinks (c : Connection) (e : Engine)
    (f : PeerLink → PeerLink × List ReplicationCall) :
    callsOn c (e.updateLinks f).2
      = e.links.values.flatMap fun l => if (f l).1.connection = c then (f l).2 else [] := by
  show callsOn c ((e.links.mapValues fun _ l => f l).values.flatMap _) = _
  rw [SortedMap.values_mapValues, List.flatMap_map, callsOn, List.filterMap_flatMap]
  congr 1
  funext l
  exact callsOn_map_call c (f l).1.connection (f l).2

/-- Links make calls, and nothing else. -/
theorem call_of_mem_updateLinks {e : Engine} {f : PeerLink → PeerLink × List ReplicationCall}
    {effect : Effect} (h : effect ∈ (e.updateLinks f).2) : ∃ c call, effect = .call c call := by
  obtain ⟨u, -, hu⟩ := List.mem_flatMap.1 h
  obtain ⟨call, -, rfl⟩ := List.mem_map.1 hu
  exact ⟨_, call, rfl⟩

/-- An update of the links publishes nothing. -/
theorem not_publish_updateLinks (e : Engine) (f : PeerLink → PeerLink × List ReplicationCall) :
    (e.updateLinks f).2.any (·.isPublish) = false := by
  rw [Bool.eq_false_iff]
  intro h
  obtain ⟨effect, hmem, hpublish⟩ := List.any_eq_true.1 h
  obtain ⟨c, call, rfl⟩ := call_of_mem_updateLinks hmem
  contradiction

/-! ## How links change -/

/-- Every link stands under the name of its connection. -/
def Keyed (links : SortedMap ConnectionId PeerLink) : Prop :=
  ∀ id l, links.get? id = some l → l.connection.id = id

/-- How links change while something is said: each one as `rel` tells of it and of the calls on its
connection. There are no calls on other connections. -/
structure LinkSteps (rel : PeerLink → PeerLink × List ReplicationCall → Prop)
    (links : SortedMap ConnectionId PeerLink) (effects : List Effect)
    (links' : SortedMap ConnectionId PeerLink) : Prop where
  forth : ∀ {id l}, links.get? id = some l →
    ∃ l', links'.get? id = some l' ∧ rel l (l', callsOn l.connection effects)
  back : ∀ {id l'}, links'.get? id = some l' → ∃ l, links.get? id = some l
  silent : ∀ c, (∀ id l, links.get? id = some l → l.connection ≠ c) → callsOn c effects = []

namespace LinkSteps

variable {rel rel' rel'' : PeerLink → PeerLink × List ReplicationCall → Prop}
  {links links' links'' : SortedMap ConnectionId PeerLink} {effects effects' : List Effect}

/-- A link of afterwards comes from one of before. -/
theorem origin (h : LinkSteps rel links effects links') {id : ConnectionId} {l' : PeerLink}
    (hl' : links'.get? id = some l') :
    ∃ l, links.get? id = some l ∧ rel l (l', callsOn l.connection effects) := by
  obtain ⟨l, hl⟩ := h.back hl'
  obtain ⟨l'', hl'', hrel⟩ := h.forth hl
  rw [hl', Option.some.injEq] at hl''
  exact ⟨l, hl, hl'' ▸ hrel⟩

/-- What links do may be told in weaker terms. -/
theorem mono (h : LinkSteps rel links effects links')
    (hrel : ∀ id l l' calls, links.get? id = some l → rel l (l', calls) → rel' l (l', calls)) :
    LinkSteps rel' links effects links' where
  forth hl := by
    obtain ⟨l', hl', hlink⟩ := h.forth hl
    exact ⟨l', hl', hrel _ _ _ _ hl hlink⟩
  back := h.back
  silent := h.silent

/-- Only the calls among what is said matter. -/
theorem congr_calls (h : LinkSteps rel links effects links')
    (hcalls : ∀ c, callsOn c effects' = callsOn c effects) :
    LinkSteps rel links effects' links' where
  forth hl := by
    obtain ⟨l', hl', hlink⟩ := h.forth hl
    exact ⟨l', hl', by rw [hcalls]; exact hlink⟩
  back := h.back
  silent c hc := by rw [hcalls, h.silent c hc]

/-- One change after the other. -/
theorem trans (h : LinkSteps rel links effects links') (h' : LinkSteps rel' links' effects' links'')
    (hconnection : ∀ {l out}, rel l out → out.1.connection = l.connection)
    (hrel : ∀ {l l' l'' calls calls'}, rel l (l', calls) → rel' l' (l'', calls') →
      rel'' l (l'', calls ++ calls')) :
    LinkSteps rel'' links (effects ++ effects') links'' where
  forth hl := by
    obtain ⟨l', hl', hlink⟩ := h.forth hl
    obtain ⟨l'', hl'', hlink'⟩ := h'.forth hl'
    rw [show l'.connection = _ from hconnection hlink] at hlink'
    exact ⟨l'', hl'', by rw [callsOn_append]; exact hrel hlink hlink'⟩
  back hl'' := by
    obtain ⟨l', hl'⟩ := h'.back hl''
    exact h.back hl'
  silent c hc := by
    rw [callsOn_append, h.silent c hc, List.nil_append]
    refine h'.silent c fun id l' hl' => ?_
    obtain ⟨l, hl, hlink⟩ := h.origin hl'
    -- the second change finds the same connections, so `c` is not among them either
    rw [show l'.connection = _ from hconnection hlink]
    exact hc id l hl

/-- Links that keep their connections still stand under their names. -/
theorem keyed (h : LinkSteps rel links effects links') (hkeyed : Keyed links)
    (hconnection : ∀ {l out}, rel l out → out.1.connection = l.connection) : Keyed links' := by
  intro id l' hl'
  obtain ⟨l, hl, hlink⟩ := h.origin hl'
  rw [show l'.connection = _ from hconnection hlink]
  exact hkeyed id l hl

/-- Links that change with no word said. -/
theorem of_mapValues {f : PeerLink → PeerLink} (hrel : ∀ l, rel l (f l, []))
    (hcalls : ∀ c, callsOn c effects = []) :
    LinkSteps rel links effects (links.mapValues fun _ l => f l) where
  forth {id l} hl := by
    refine ⟨f l, ?_, by rw [hcalls]; exact hrel l⟩
    rw [SortedMap.get?_mapValues, hl, Option.map_some]
  back hl' := by
    rw [SortedMap.get?_mapValues] at hl'
    obtain ⟨l, hl, -⟩ := Option.map_eq_some_iff.1 hl'
    exact ⟨l, hl⟩
  silent c _ := hcalls c

/-- Where nothing is called and no link changes, each link does as little as there is to do. -/
theorem of_eq (hrel : ∀ l, rel l (l, [])) (hcalls : ∀ c, callsOn c effects = [])
    (heq : links' = links) : LinkSteps rel links effects links' where
  forth {id l} hl := ⟨l, heq ▸ hl, by rw [hcalls]; exact hrel l⟩
  back hl' := ⟨_, heq ▸ hl'⟩
  silent c _ := hcalls c

/-- What `updateLinks` does to the links is what it does to each, with the calls on its connection:
names are unique, so no two links share one. -/
theorem of_updateLinks {e : Engine} (hkeyed : Keyed e.links)
    {f : PeerLink → PeerLink × List ReplicationCall}
    (hconnection : ∀ l, (f l).1.connection = l.connection) (hrel : ∀ l, rel l (f l)) :
    LinkSteps rel e.links (e.updateLinks f).2 (e.updateLinks f).1.links where
  forth {id l} hl := by
    refine ⟨(f l).1, ?_, ?_⟩
    · rw [Engine.updateLinks_engine, SortedMap.get?_mapValues, hl, Option.map_some]
    · have hcalls : callsOn l.connection (e.updateLinks f).2 = (f l).2 := by
        rw [callsOn_updateLinks]
        refine (SortedMap.flatMap_values_eq hl fun j w hw hne => ?_).trans ?_
        · -- another link of the same connection would stand under the same name
          rw [if_neg]
          intro heq
          rw [hconnection] at heq
          rw [← hkeyed j w hw, heq, hkeyed id l hl] at hne
          contradiction
        · rw [if_pos (hconnection l)]
      rw [hcalls]
      exact hrel l
  back hl' := by
    rw [Engine.updateLinks_engine, SortedMap.get?_mapValues] at hl'
    obtain ⟨l, hl, -⟩ := Option.map_eq_some_iff.1 hl'
    exact ⟨l, hl⟩
  silent c hc := by
    rw [callsOn_updateLinks, List.flatMap_eq_nil_iff]
    intro l hl
    obtain ⟨⟨id, l⟩, hmem, rfl⟩ := List.mem_map.1 hl
    rw [if_neg]
    rw [hconnection]
    exact hc id l (SortedMap.get?_of_mem hmem)

end LinkSteps

/-! ## Evaluations -/

/-- What an evaluation does to a link: it takes capabilities and state over, and is exact then. -/
structure PeerLink.Evaluated (plan : NamespacePlan) (catalog : Catalog)
    (capabilities : Capabilities) (enabled : EnabledState) (l : PeerLink)
    (out : PeerLink × List ReplicationCall) : Prop extends l.LeadsTo out where
  capabilities : out.1.capabilities = capabilities
  enabled : out.1.enabled = enabled
  exact : l.Within catalog → out.1.Exact plan catalog

/-- How an evaluation gets there: the capabilities come first, and then the state. -/
def PeerLink.follow (plan : NamespacePlan) (catalog : Catalog) (capabilities : Capabilities)
    (enabled : EnabledState) (l : PeerLink) : PeerLink × List ReplicationCall :=
  let refreshed := l.setCapabilities plan catalog capabilities
  let pushed := refreshed.1.setEnabled plan catalog enabled
  (pushed.1, refreshed.2 ++ pushed.2)

/-- To follow a verdict is what an evaluation does to a link. -/
theorem PeerLink.evaluated (plan : NamespacePlan) (catalog : Catalog) (capabilities : Capabilities)
    (enabled : EnabledState) (l : PeerLink) :
    l.Evaluated plan catalog capabilities enabled
      (l.follow plan catalog capabilities enabled) where
  toLeadsTo := (leadsTo_setCapabilities plan catalog l capabilities).trans
    (leadsTo_setEnabled plan catalog _ enabled)
  capabilities := capabilities_setCapabilities l capabilities
  enabled := rfl
  exact hwithin := by
    have hrefreshed : (l.setCapabilities plan catalog capabilities).1.Within catalog :=
      within_setCapabilities hwithin capabilities
    exact exact_reconcile (l := { (l.setCapabilities plan catalog capabilities).1 with enabled })
      hrefreshed

namespace Engine

/-- An evaluation makes every link follow the roles and the verdict. -/
theorem linkSteps_follow {e : Engine} (hkeyed : Keyed e.links) (roles : Roles) (now : Nat) :
    LinkSteps (fun l out => out = l.follow e.plan e.catalog (roles.resolve e.plan l.peer)
        (e.verdictSeen roles).state)
      e.links (e.evaluate roles now).2 (e.evaluate roles now).1.links := by
  let refresh (l : PeerLink) := l.setCapabilities e.plan e.catalog (roles.resolve e.plan l.peer)
  let push (l : PeerLink) := l.setEnabled e.plan e.catalog (e.verdictSeen roles).state
  have hconnection {l : PeerLink} {out : PeerLink × List ReplicationCall} (h : out = refresh l) :
      out.1.connection = l.connection :=
    h ▸ (PeerLink.leadsTo_setCapabilities _ _ _ _).connection
  have hrefresh : LinkSteps (fun l out => out = refresh l) e.links
      (e.refreshCapabilities roles).2 (e.decided roles now).links := by
    have hsteps : LinkSteps (fun l out => out = refresh l) e.links (e.updateLinks refresh).2
        (e.updateLinks refresh).1.links :=
      .of_updateLinks hkeyed (fun _ => hconnection rfl) (fun _ => rfl)
    rw [updateLinks_engine] at hsteps
    exact hsteps
  have hpush : LinkSteps (fun l out => out = push l) (e.decided roles now).links
      ((e.decided roles now).updateLinks push).2 (e.evaluate roles now).1.links := by
    have hsteps : LinkSteps (fun l out => out = push l) (e.decided roles now).links
        ((e.decided roles now).updateLinks push).2
        ((e.decided roles now).updateLinks push).1.links :=
      .of_updateLinks (hrefresh.keyed hkeyed hconnection) (fun _ => rfl) (fun _ => rfl)
    rw [updateLinks_engine] at hsteps
    rw [evaluate_engine]
    exact hsteps
  refine (hrefresh.trans hpush hconnection fun {l l' l'' calls calls'} h h' => ?_).congr_calls
    fun c => ?_
  · obtain ⟨rfl, rfl⟩ := Prod.mk.inj h
    obtain ⟨rfl, rfl⟩ := Prod.mk.inj h'
    rfl
  · -- the snapshot and the answers are no calls
    rw [evaluate_effects, callsOn_append, callsOn_append, callsOn_map_answer, List.append_nil]
    exact List.append_nil _

/-- An evaluation brings every link in line with the roles and the new state, and makes the calls
for it. -/
theorem linkSteps_evaluate {e : Engine} (hkeyed : Keyed e.links) (roles : Roles) (now : Nat) :
    LinkSteps (fun l => l.Evaluated e.plan e.catalog (roles.resolve e.plan l.peer)
        (e.verdictSeen roles).state)
      e.links (e.evaluate roles now).2 (e.evaluate roles now).1.links :=
  (linkSteps_follow hkeyed roles now).mono fun _ l _ _ _ h => h ▸ l.evaluated _ _ _ _

/-- Every evaluation publishes. -/
theorem publish_evaluate (e : Engine) (roles : Roles) (now : Nat) :
    (e.evaluate roles now).2.any (·.isPublish) = true := by
  rw [evaluate_effects, List.any_append, List.any_append]
  simp [Effect.isPublish]

end Engine

/-! ## Quiet steps -/

/-- Announcements that are handed over one by one bring a link no news of roles and states. -/
theorem PeerLink.stays_announced (plan : NamespacePlan) (catalog : Catalog) (now : Nat)
    (as : List Announcement) (l : PeerLink) :
    l.Stays plan catalog catalog (l.announced plan catalog now as) := by
  unfold announced
  refine List.foldlRecOn (motive := fun out => l.Stays plan catalog catalog out) _ _ (.refl l)
    fun out hout a _ => ?_
  exact hout.trans (out.1.stays_announce plan catalog a.key now)

namespace Engine

/-- How a step goes that does not evaluate: the links stay what roles and state have made of them,
and keep up with the catalog. -/
structure Quiet (e : Engine) (out : Engine × List Effect) : Prop where
  settings : out.1.settings = e.settings
  current : out.1.switch.current = e.switch.current
  silent : out.2.any (·.isPublish) = false
  links : LinkSteps (PeerLink.Stays e.plan e.catalog out.1.catalog) e.links out.2 out.1.links

/-- A step that is not about links. -/
theorem Quiet.of_eq {e e' : Engine} {effects : List Effect} (hsettings : e'.settings = e.settings)
    (hcurrent : e'.switch.current = e.switch.current) (hcatalog : e'.catalog = e.catalog)
    (hlinks : e'.links = e.links) (hcalls : ∀ c, callsOn c effects = [])
    (hsilent : effects.any (·.isPublish) = false) : e.Quiet (e', effects) :=
  ⟨hsettings, hcurrent, hsilent, hcatalog ▸ .of_eq (fun l => .refl l) hcalls hlinks⟩

/-- A step that changes every link in a way that makes it stay. -/
theorem Quiet.of_updateLinks {e : Engine} (e' : Engine) (hkeyed : Keyed e.links)
    (hsettings : e'.settings = e.settings) (hcurrent : e'.switch.current = e.switch.current)
    (hlinks : e'.links = e.links) {f : PeerLink → PeerLink × List ReplicationCall}
    (hf : ∀ l : PeerLink, l.Stays e.plan e.catalog e'.catalog (f l)) :
    e.Quiet (e'.updateLinks f) where
  settings := by rw [updateLinks_engine]; exact hsettings
  current := by rw [updateLinks_engine]; exact hcurrent
  silent := not_publish_updateLinks e' f
  links := by
    have hsteps : LinkSteps (PeerLink.Stays e.plan e.catalog e'.catalog) e'.links
        (e'.updateLinks f).2 (e'.updateLinks f).1.links :=
      .of_updateLinks (hlinks ▸ hkeyed) (fun l => (hf l).connection) hf
    rw [hlinks] at hsteps
    rw [show (e'.updateLinks f).1.catalog = e'.catalog by rw [updateLinks_engine]]
    exact hsteps

section
variable {e : Engine} (hkeyed : Keyed e.links) (now : Nat)
include hkeyed

theorem quiet_handOver (input : Input) : e.Quiet (e.handOver now input) := by
  cases input
  case addPeer c =>
    refine .of_updateLinks { e with early := (e.early.takeMatching (·.connection = c.id)).1 }
      hkeyed rfl rfl rfl fun l => ?_
    split
    · exact l.stays_announced e.plan e.catalog now _
    · exact .refl l
  all_goals exact .of_eq rfl rfl rfl rfl (fun _ => rfl) rfl

theorem quiet_announce (id : ConnectionId) (key : DiscoveryKey) :
    e.Quiet (e.announce now id key) := by
  unfold announce
  split
  · refine .of_updateLinks e hkeyed rfl rfl rfl fun l => ?_
    split
    · exact l.stays_announce e.plan e.catalog key now
    · exact .refl l
  · exact .of_eq rfl rfl rfl rfl (fun _ => rfl) rfl

/-- To add a core does not evaluate: it reaches the links as one more core to replicate. -/
theorem quiet_addCore (ns : Namespace) (key : DiscoveryKey) (snapshot : CoreSnapshot) :
    e.Quiet (e.addCore now ns key snapshot) := by
  rcases e.addCore_cases now ns key snapshot with
    ⟨result, heq⟩ | ⟨t, -, -, ⟨err, -, heq⟩ | ⟨core, -, heq⟩ | ⟨core, -, heq⟩⟩
  · rw [heq]; exact .of_eq rfl rfl rfl rfl (fun _ => rfl) rfl
  · rw [heq]; exact .of_eq rfl rfl rfl rfl (fun _ => rfl) rfl
  · rw [heq]; exact .of_eq rfl rfl rfl rfl (fun _ => rfl) rfl
  · have hquiet : e.Quiet ((e.withCore ns t key core).updateLinks fun l =>
        l.coreAdded e.plan (e.catalog.insert key ns).1 key) :=
      .of_updateLinks (e.withCore ns t key core) hkeyed rfl rfl rfl fun l =>
        l.stays_coreAdded e.plan (fun _ h => Catalog.contains_insert h key ns) key
    rw [heq]
    refine ⟨hquiet.settings, hquiet.current, ?_, hquiet.links.congr_calls fun c => ?_⟩
    · rw [List.any_append, List.any_cons, hquiet.silent]
      rfl
    · rw [callsOn_append]
      exact List.append_nil _

end

theorem quiet_updateNamed (e : Engine) (now : Nat) (ns : Namespace) (key : DiscoveryKey)
    (f : CoreTracker → CoreTracker) : e.Quiet (e.updateNamed now ns key f, []) := by
  unfold updateNamed
  dsimp only
  split
  all_goals exact .of_eq rfl rfl rfl rfl (fun _ => rfl) rfl

theorem quiet_coreEvent (e : Engine) (now : Nat) (key : DiscoveryKey) (event : CoreEvent) :
    e.Quiet (e.coreEvent now key event, []) := by
  unfold coreEvent
  dsimp only
  split
  · exact .of_eq rfl rfl rfl rfl (fun _ => rfl) rfl
  · split
    all_goals exact .of_eq rfl rfl rfl rfl (fun _ => rfl) rfl

theorem quiet_wait (e : Engine) (w : Waiter) : e.Quiet (e.wait w) := by
  unfold wait
  dsimp only
  rw [readStates_engine]
  split
  all_goals exact .of_eq rfl rfl rfl rfl (fun _ => rfl) rfl

theorem quiet_report (e : Engine) (ns : Namespace) : e.Quiet (e.report ns) := by
  unfold report
  split
  all_goals exact .of_eq rfl rfl rfl rfl (fun _ => rfl) rfl

/-- Announcements that run out leave what is replicated as it is. -/
theorem quiet_expire (e : Engine) (now : Nat) : e.Quiet (e.expire now, []) where
  settings := rfl
  current := rfl
  silent := rfl
  links := by
    have hexpire (l : PeerLink) : l.Stays e.plan e.catalog e.catalog ((l.expire now).1, []) :=
      ⟨⟨rfl, rfl⟩, rfl, rfl, id⟩
    exact LinkSteps.of_mapValues hexpire fun _ => rfl

/-- An input that is not evaluated at once is quiet. -/
theorem quiet_handleQuietly {e : Engine} (hkeyed : Keyed e.links) (now : Nat) (input : Input) :
    e.Quiet (e.handleQuietly now input) := by
  cases input
  case wait w => exact e.quiet_wait w
  case announce id key => exact quiet_announce hkeyed now id key
  case addCore ns key snapshot => exact quiet_addCore hkeyed now ns key snapshot
  case preHaves p m => exact e.quiet_updateNamed now m.ns m.key _
  case wants ns key p ranges => exact e.quiet_updateNamed now ns key _
  case report ns => exact e.quiet_report ns
  case coreEvent key event => exact e.quiet_coreEvent now key event
  case timer t =>
    cases t
    case expiry => exact e.quiet_expire now
    all_goals exact .of_eq rfl rfl rfl rfl (fun _ => rfl) rfl
  all_goals exact .of_eq rfl rfl rfl rfl (fun _ => rfl) rfl

/-! ## Steps -/

/-- Every link is exact, under the state of the switch and the given roles. -/
structure InLine (roles : Roles) (e : Engine) : Prop where
  keyed : Keyed e.links
  exact : ∀ {id l}, e.links.get? id = some l → l.Exact e.plan e.catalog
  enabled : ∀ {id l}, e.links.get? id = some l → l.enabled = e.switch.current
  capabilities : ∀ {id l}, e.links.get? id = some l →
    l.capabilities = roles.resolve e.plan l.peer

/-- An evaluation brings the links in line, whatever roles and state they followed before. -/
theorem inLine_evaluate {e : Engine} (hkeyed : Keyed e.links)
    (hwithin : ∀ id l, e.links.get? id = some l → l.Within e.catalog) (roles : Roles) (now : Nat) :
    (e.evaluate roles now).1.InLine roles := by
  have hsteps := linkSteps_evaluate hkeyed roles now
  have hengine := e.evaluate_engine roles now
  have hplan : (e.evaluate roles now).1.plan = e.plan := by rw [hengine]; rfl
  have hcatalog : (e.evaluate roles now).1.catalog = e.catalog := by rw [hengine]
  have hcurrent : (e.evaluate roles now).1.switch.current = (e.verdictSeen roles).state := by
    rw [hengine]
  refine ⟨hsteps.keyed hkeyed fun h => h.connection, ?_, ?_, ?_⟩ <;> intro id l' hl'
  all_goals obtain ⟨l, hl, hlink⟩ := hsteps.origin hl'
  · rw [hplan, hcatalog]
    exact hlink.exact (hwithin id l hl)
  · rw [hcurrent]
    exact hlink.enabled
  · rw [hplan, show l'.peer = l.peer from congrArg Connection.peer hlink.connection]
    exact hlink.capabilities

/-- A quiet step leaves them in line. -/
theorem InLine.of_quiet {roles : Roles} {e : Engine} {out : Engine × List Effect}
    (h : e.InLine roles) (hquiet : e.Quiet out) : out.1.InLine roles := by
  have hplan : out.1.plan = e.plan := congrArg Settings.plan hquiet.settings
  refine ⟨hquiet.links.keyed h.keyed fun h => h.connection, ?_, ?_, ?_⟩ <;> intro id l' hl'
  all_goals obtain ⟨l, hl, hlink⟩ := hquiet.links.origin hl'
  · rw [hplan]
    exact hlink.exact (h.exact hl)
  · rw [hquiet.current, ← h.enabled hl]
    exact hlink.enabled
  · rw [hplan, show l'.peer = l.peer from congrArg Connection.peer hlink.connection,
      ← h.capabilities hl]
    exact hlink.capabilities

/-- The links that a step begins with are those of before, but for one that is new. -/
theorem link_of_evaluatedFor {now : Nat} {e : Engine} {input : Input} {id : ConnectionId}
    {l : PeerLink} (hl : ((e.evaluatedFor? now input).getD e).links.get? id = some l) :
    e.links.get? id = some l ∨
      ∃ c, input = .addPeer c ∧ e.links.get? c.id = none ∧ id = c.id ∧
        l = .ofConnection c e.settings.grace := by
  cases h₀ : e.evaluatedFor? now input with
  | none =>
    rw [h₀] at hl
    exact Or.inl hl
  | some e₀ =>
    rw [h₀, Option.getD_some] at hl
    obtain ⟨early, switch, autostop, throttle, links, rfl, hlinks⟩ := eq_of_evaluated h₀
    rcases hlinks with rfl | ⟨c, hinput, hnew, rfl⟩ | ⟨id', hinput, rfl⟩
    · exact Or.inl hl
    · rw [SortedMap.get?_insert] at hl
      split at hl
      · next hid => exact Or.inr ⟨c, hinput, hnew, hid, (Option.some.inj hl).symm⟩
      · exact Or.inl hl
    · rw [SortedMap.get?_erase] at hl
      split at hl
      · contradiction
      · exact Or.inl hl

/-- They include all those of before, but for one that is removed. -/
theorem link_evaluatedFor {e : Engine} {id : ConnectionId} {l : PeerLink}
    (hl : e.links.get? id = some l) (now : Nat) (input : Input) :
    ((e.evaluatedFor? now input).getD e).links.get? id = some l ∨ input = .removePeer id := by
  cases h₀ : e.evaluatedFor? now input with
  | none => exact Or.inl hl
  | some e₀ =>
    rw [Option.getD_some]
    obtain ⟨early, switch, autostop, throttle, links, rfl, hlinks⟩ := eq_of_evaluated h₀
    rcases hlinks with rfl | ⟨c, -, hnew, rfl⟩ | ⟨id', hinput, rfl⟩
    · exact Or.inl hl
    · refine Or.inl ?_
      rw [SortedMap.get?_insert, if_neg, hl]
      rintro rfl
      rw [hl] at hnew
      contradiction
    · by_cases hid : id = id'
      · exact Or.inr (hid ▸ hinput)
      · exact Or.inl (by rw [SortedMap.get?_erase, if_neg hid, hl])

/-- What an input brings to its evaluation are exact links under their names. -/
theorem InLine.brought {before : Roles} {now : Nat} {e e₀ : Engine} {input : Input}
    (h : e.InLine before) (h₀ : e.evaluatedFor? now input = some e₀) :
    Keyed e₀.links ∧ ∀ {id l}, e₀.links.get? id = some l → l.Exact e₀.plan e₀.catalog := by
  have hcatalog := (frame_of_evaluated h₀).2
  have hplan : e₀.plan = e.plan := by
    obtain ⟨early, switch, autostop, throttle, links, rfl, -⟩ := eq_of_evaluated h₀
    rfl
  have horigin {id : ConnectionId} {l : PeerLink} (hl : e₀.links.get? id = some l) :
      e.links.get? id = some l ∨ ∃ c, id = c.id ∧ l = .ofConnection c e.settings.grace := by
    have hstart : ((e.evaluatedFor? now input).getD e).links.get? id = some l := by
      rw [h₀]
      exact hl
    rcases link_of_evaluatedFor hstart with hl | ⟨c, -, -, hnew⟩
    · exact Or.inl hl
    · exact Or.inr ⟨c, hnew⟩
  refine ⟨fun id l hl => ?_, fun {id l} hl => ?_⟩ <;> rcases horigin hl with hl | ⟨c, rfl, rfl⟩
  · exact h.keyed id l hl
  · rfl
  · rw [hcatalog, hplan]
    exact h.exact hl
  · exact PeerLink.exact_ofConnection _ _ c _

/-- So the evaluation brings them in line, and what follows on it is quiet. -/
theorem InLine.evaluated {before : Roles} {now : Nat} {e e₀ : Engine} {input : Input}
    (h : e.InLine before) (h₀ : e.evaluatedFor? now input = some e₀) (roles : Roles) :
    Keyed e₀.links ∧ (e₀.evaluate roles now).1.InLine roles ∧
      (e₀.evaluate roles now).1.Quiet ((e₀.evaluate roles now).1.handOver now input) := by
  obtain ⟨hkeyed, hexact⟩ := h.brought h₀
  have hwithin (id : ConnectionId) (l : PeerLink) (hl : e₀.links.get? id = some l) :
      l.Within e₀.catalog := PeerLink.within_of_exact (hexact hl)
  have hline := inLine_evaluate hkeyed hwithin roles now
  exact ⟨hkeyed, hline, quiet_handOver hline.keyed now input⟩

/-- After every input the links are in line with the roles that were looked up last. -/
theorem InLine.handle {before : Roles} {e : Engine} (h : e.InLine before) (roles : Roles)
    (now : Nat) (input : Input) :
    (e.handle roles now input).1.InLine
      (if (e.handle roles now input).2.any (·.isPublish) then roles else before) := by
  cases h₀ : e.evaluatedFor? now input with
  | some e₀ =>
    obtain ⟨-, hline, hquiet⟩ := h.evaluated h₀ roles
    have hhanded := hline.of_quiet hquiet
    rw [handle_of_evaluated h₀, List.any_append, publish_evaluate]
    exact hhanded
  | none =>
    have hquiet := quiet_handleQuietly h.keyed now input
    rw [handle_of_not_evaluated h₀, hquiet.silent]
    exact h.of_quiet hquiet

/-- Every input leads the connections that are linked then to what their links replicate, and makes
no calls on others. -/
theorem InLine.leads_handle {before : Roles} {e : Engine} (h : e.InLine before) (roles : Roles)
    (now : Nat) (input : Input) :
    LinkSteps PeerLink.LeadsTo ((e.evaluatedFor? now input).getD e).links
      (e.handle roles now input).2 (e.handle roles now input).1.links := by
  cases h₀ : e.evaluatedFor? now input with
  | some e₀ =>
    obtain ⟨hkeyed, -, hquiet⟩ := h.evaluated h₀ roles
    rw [handle_of_evaluated h₀, Option.getD_some]
    exact (linkSteps_evaluate hkeyed roles now).trans hquiet.links (fun h => h.connection)
      fun h h' => h.toLeadsTo.trans h'.toLeadsTo
  | none =>
    rw [handle_of_not_evaluated h₀]
    exact (quiet_handleQuietly h.keyed now input).links.mono fun _ _ _ _ _ h => h.toLeadsTo

/-- No input changes the settings, whichever it is. -/
theorem InLine.settings_handle {before : Roles} {e : Engine} (h : e.InLine before) (roles : Roles)
    (now : Nat) (input : Input) : (e.handle roles now input).1.settings = e.settings := by
  cases h₀ : e.evaluatedFor? now input with
  | some e₀ =>
    obtain ⟨-, -, hquiet⟩ := h.evaluated h₀ roles
    obtain ⟨early, switch, autostop, throttle, links, rfl, -⟩ := eq_of_evaluated h₀
    rw [handle_of_evaluated h₀, hquiet.settings, evaluate_engine]
  | none =>
    rw [handle_of_not_evaluated h₀]
    exact (quiet_handleQuietly h.keyed now input).settings

end Engine

/-! ## Both ends of every connection -/

/-- Which namespaces are synced in a state: none, those that come first, or all. -/
def EnabledState.Covers (plan : NamespacePlan) (ns : Namespace) : EnabledState → Prop
  | none => False
  | presync => ns ∈ plan.presync
  | all => True

theorem EnabledState.enables_iff {state : EnabledState} {plan : NamespacePlan} {ns : Namespace} :
    state.enables plan ns = true ↔ state.Covers plan ns := by
  cases state <;> simp [enables, Covers, NamespacePlan.isPresync]

instance (state : EnabledState) (plan : NamespacePlan) (ns : Namespace) :
    Decidable (state.Covers plan ns) :=
  decidable_of_iff _ EnabledState.enables_iff

namespace Run

variable {s : Settings}

theorem settings_engine_and_inLine (r : Run s) :
    r.engine.settings = s ∧ r.engine.InLine r.lastRoles := by
  induction r with
  | begin roles now =>
    have hnone (id : ConnectionId) (l : PeerLink)
        (hl : (Engine.ofSettings s).links.get? id = some l) : False := by contradiction
    refine ⟨?_, Engine.inLine_evaluate (fun id l hl => (hnone id l hl).elim)
      (fun id l hl => (hnone id l hl).elim) roles now⟩
    show ((Engine.ofSettings s).evaluate roles now).1.settings = s
    rw [Engine.evaluate_engine]
    rfl
  | handle before roles now input ih =>
    obtain ⟨hsettings, hinLine⟩ := ih
    exact ⟨(hinLine.settings_handle roles now input).trans hsettings,
      hinLine.handle roles now input⟩

/-- The far ends of the connections follow the links; those that were never linked replicate
nothing. -/
structure Follows (r : Run s) : Prop where
  linked : ∀ {id l}, r.engine.links.get? id = some l → l.replicating = r.replicatedBy l.connection
  unlinked : ∀ {c}, ¬ r.engine.IsLinked c → ¬ r.HasLost c → r.replicatedBy c = ∅

/-- The other end of a connection follows the calls of each step. -/
theorem replicatedBy_handle (before : Run s) (roles : Roles) (now : Nat) (input : Input)
    (c : Connection) :
    (before.handle roles now input).replicatedBy c
      = (callsOn c (before.engine.handle roles now input).2).foldl ReplicationCall.apply
          (before.replicatedBy c) := by
  show (callsOn c (before.effects ++ _)).foldl _ _ = _
  rw [callsOn_append, List.foldl_append]
  rfl

theorem follows_begin (roles : Roles) (now : Nat) : (begin roles now : Run s).Follows := by
  have hkeyed : Keyed (Engine.ofSettings s).links := fun id l hl => by contradiction
  have hsteps := Engine.linkSteps_evaluate hkeyed roles now
  refine ⟨fun {id l} hl => ?_, fun {c} _ _ => ?_⟩
  · obtain ⟨l, hl⟩ := hsteps.back hl
    contradiction
  · have hcalls : callsOn c (begin roles now : Run s).effects = [] :=
      hsteps.silent c fun id l hl => by contradiction
    rw [replicatedBy, hcalls]
    rfl

/-- One input keeps the far ends with their links. -/
theorem Follows.handle {before : Run s} (h : before.Follows) (roles : Roles) (now : Nat)
    {input : Input} (hreturn : ∀ c, input = .addPeer c → ¬ before.HasLost c) :
    (before.handle roles now input).Follows := by
  have hsteps := before.settings_engine_and_inLine.2.leads_handle roles now input
  have hkeyed : Keyed (before.engine.handle roles now input).1.links :=
    (before.settings_engine_and_inLine.2.handle roles now input).keyed
  refine ⟨fun {id l'} hl' => ?_, fun {c} hunlinked hlost => ?_⟩
  · obtain ⟨l, hl, hlink⟩ := hsteps.origin hl'
    -- a new link begins with nothing, and so does its connection
    have hbefore : before.replicatedBy l.connection = l.replicating := by
      rcases Engine.link_of_evaluatedFor hl with hl | ⟨c, hinput, hnew, rfl, rfl⟩
      · exact (h.linked hl).symm
      · refine h.unlinked ?_ (hreturn c hinput)
        rintro ⟨l, hl, -⟩
        have hsome := hnew.symm.trans hl
        contradiction
    rw [replicatedBy_handle, show l'.connection = l.connection from hlink.connection, hbefore]
    exact hlink.calls.symm
  · -- whatever is linked at the start of a step is linked at its end, so `c` was not
    have hapart : ∀ id l,
        ((before.engine.evaluatedFor? now input).getD before.engine).links.get? id = some l →
          l.connection ≠ c := by
      rintro id l hl rfl
      obtain ⟨l', hl', hlink⟩ := hsteps.forth hl
      have hconnection : l'.connection = l.connection := hlink.connection
      have hid := hkeyed id l' hl'
      exact hunlinked ⟨l', by rw [← hconnection, hid]; exact hl', hconnection⟩
    rw [replicatedBy_handle, hsteps.silent c hapart]
    -- nor was it linked before, for then the input would have removed it
    refine h.unlinked ?_ fun hlost' => hlost (Or.inl hlost')
    rintro ⟨l, hl, hconnection⟩
    rcases Engine.link_evaluatedFor hl now input with hl' | hinput
    · exact hapart c.id l hl' hconnection
    · exact hlost (Or.inr ⟨⟨l, hl, hconnection⟩, hinput⟩)

/-- Over every run in which no connection comes back, both ends of each connection agree. -/
theorem follows (r : Run s) (h : r.NoReturns) : r.Follows := by
  induction r with
  | begin roles now => exact follows_begin roles now
  | handle before roles now input ih => exact (ih h.1).handle roles now h.2

/-- **Replication is exact.** After every input of every run, the cores that a link counts as
replicated are those that its connection replicates, and these are exactly the attached cores whose
namespaces its peer may sync, by the roles of the last evaluation, and which are synced in the
present state. The state that the link was given last is the present one. -/
theorem replication_is_exact (r : Run s) (hreturns : r.NoReturns) {id : ConnectionId}
    {l : PeerLink} (hl : r.engine.links.get? id = some l) :
    l.replicating = r.replicatedBy l.connection ∧
    (∀ key, l.replicating.contains key = true ↔
      ∃ ns, r.engine.catalog.namespaceOf? key = some ns ∧
        l.capabilities.allows ns = true ∧ r.engine.switch.current.Covers s.plan ns) ∧
    l.capabilities = r.lastRoles.resolve s.plan l.peer ∧
    l.enabled = r.engine.switch.current := by
  obtain ⟨hsettings, hinLine⟩ := r.settings_engine_and_inLine
  have hplan : r.engine.plan = s.plan := congrArg Settings.plan hsettings
  refine ⟨(r.follows hreturns).linked hl, fun key => ?_, ?_, hinLine.enabled hl⟩
  · have hexact : l.replicating.contains key = _ := hinLine.exact hl key
    rw [hexact, Option.any_eq_true, hplan]
    simp only [PeerLink.enables, hinLine.enabled hl, Bool.and_eq_true, EnabledState.enables_iff]
  · rw [← hplan]
    exact hinLine.capabilities hl

/-- A peer leaves and comes back over a new connection of the same name, and then a core is
attached. -/
theorem replication_is_exact_after_reconnecting :
    let allowed : Roles := fun _ _ => .allowed
    let first : Connection := ⟨⟨0⟩, default, 0⟩
    let second : Connection := ⟨⟨0⟩, default, 1⟩
    let joined : Run {} := .handle (.begin allowed 0) allowed 0 (.addPeer first)
    let left : Run {} := .handle joined allowed 0 (.removePeer first.id)
    let back : Run {} := .handle left allowed 0 (.addPeer second)
    let r : Run {} := .handle back allowed 0 (.addCore .auth default ⟨default, 0, default, []⟩)
    r.NoReturns ∧ ∃ l, r.engine.links.get? ⟨0⟩ = some l ∧
      l.replicating.contains default = true ∧ l.replicating = r.replicatedBy second := by
  intro allowed first second joined left back r
  have hother : ¬ left.HasLost second := by
    rintro ((hnever | ⟨-, hinput⟩) | ⟨⟨l, hl, hconnection⟩, -⟩)
    · exact hnever
    · cases hinput
    · have hserial : (joined.engine.links.get? ⟨0⟩).map (·.connection.serial) = some 0 := by decide
      rw [show joined.engine.links.get? ⟨0⟩ = some l from hl, Option.map_some, hconnection]
        at hserial
      cases hserial
  have hreturns : r.NoReturns := by
    refine ⟨⟨⟨⟨trivial, fun c _ => id⟩, fun c hc => by cases hc⟩, fun c hc => ?_⟩,
      fun c hc => by cases hc⟩
    cases hc
    exact hother
  have hnow : (r.engine.links.get? ⟨0⟩).map
      (fun l => (l.connection, l.replicating.contains default)) = some (second, true) := by decide
  obtain ⟨l, hl, hnow⟩ := Option.map_eq_some_iff.1 hnow
  obtain ⟨hreplicated, -⟩ := replication_is_exact r hreturns hl
  obtain ⟨hconnection, hreplicates⟩ := Prod.mk.inj hnow
  exact ⟨hreturns, l, hl, hreplicates, hconnection ▸ hreplicated⟩

end Run

end LogSync
