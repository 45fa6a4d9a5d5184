import BirakFormal.Daemon.Stream
import BirakFormal.Shared.Paging

/-!
# Comparing a peer's manifest

The manifest of a peer is read in pages in the order of names. A pass begins at the position that
the last one left, may stop at any page, and leaves a position only when everything before it has
been compared. A cycle is what lies between a pass that begins at the empty position and one that
finds an empty page.
-/

namespace BirakFormal

open Relation

def manifestPageSize : Nat := 1000

/-- The rows in the order of their names. Names are compared as bytes, which for UTF-8 is the order of
the code points. -/
def Store.byName (s : Store) : List FileMeta := s.files.rows.insertionSort fun a b => a.name ≤ b.name

def Store.listManifest (s : Store) (afterName : String) (limit : Nat) : List FileMeta :=
  (Paging.rest FileMeta.name s.byName afterName).take limit

def namesFollow : String → List FileMeta → Bool
  | _, [] => true
  | previous, e :: es => previous < e.name && namesFollow e.name es

def lastName (after : String) (page : List FileMeta) : String := (page.getLast?.map FileMeta.name).getD after

inductive ManifestReply where
  | failed
  | notFound
  | badStatus
  | undecodable
  | page (entries : List FileMeta)

/-- Where a pass is: at the top of its loop, with an answer that it has not read, with a page in order,
or with the rows and fences that the page is compared with. -/
inductive PassPhase where
  | asking
  | answered (reply : ManifestReply)
  | served (page : List FileMeta)
  | compared (page : List FileMeta) (rows : String → Option FileMeta) (fenced : String → Bool)

/-- The variables of `reconcileOnce`. `trail` and `names` are not part of it: the positions of the pass
so far and the names that the manifest has had since it began. -/
structure Pass where
  after : String
  pages : Nat := 0
  phase : PassPhase := .asking
  trail : List String
  names : List String

/-- A node, the index of a peer, which may change in any way, the stored position and the pass under
way. `kept` and `log` are not part of it: the entries of the manifest that have not changed since the
cycle began, and the pages of the cycle with the store right after each. -/
structure Reconciliation where
  world : World
  index : Store
  position : String := ""
  pass : Option Pass := none
  completed : Bool := false
  kept : FileMeta → Prop := fun _ => False
  log : List (List FileMeta × Store) := []

namespace Reconciliation

variable (c : Reconciliation)

def settle (saved : Bool) (position : String) : Reconciliation :=
  { c with pass := none, position := if saved then position else c.position }

def interrupted (p : Pass) (saved : Bool) : Reconciliation := c.settle saved p.after

def begin : Reconciliation :=
  let cycle : Reconciliation := if c.position = "" then { c with kept := (· ∈ c.index.files.rows), log := [] } else c
  let pass : Pass := { after := c.position, trail := [c.position], names := c.index.files.rows.map FileMeta.name }
  { cycle with pass := some pass, completed := false }

def reindex (s : Store) : Reconciliation :=
  { c with
    index := s
    pass := c.pass.map fun p => { p with names := s.files.rows.map FileMeta.name ++ p.names }
    kept := fun e => c.kept e ∧ e ∈ s.files.rows }

def receive (p : Pass) (saved : Bool) : ManifestReply → Reconciliation
  | .failed | .badStatus | .undecodable => c.interrupted p saved
  | .notFound => c.settle saved ""
  | .page entries =>
    if manifestPageSize < entries.length then { c with pass := none }
    else if entries = [] then { c.settle saved "" with completed := saved }
    else if !namesFollow p.after entries then { c with pass := none }
    else { c with pass := some { p with phase := .served entries } }

variable (cfg : Config) (peer : String)

/-- `EnqueueChanges` at the end of `reconcilePage`, and what follows it. -/
def enqueue (p : Pass) (page : List FileMeta) (rows : String → Option FileMeta) (fenced : String → Bool) (now : Int)
    (saved : Bool) : Reconciliation :=
  let r := c.world.node.store.enqueueChanges cfg.repairLimit now peer "reconcile"
    (newerThanLocal rows fenced (usableChanges cfg page))
  let c' := { c with world := c.world.withStore r.2 }
  match r.1.2 with
  | some _ => c'.interrupted p saved
  | none =>
    let after := lastName p.after page
    { c' with
      pass := some { p with after := after, phase := .asking, trail := after :: p.trail }
      log := (page, r.2) :: c.log }

end Reconciliation

section
variable (cfg : Config) (peer : String) (batchLimit pageBudget : Nat)

def ManifestReply.Served (index : Store) (after : String) : ManifestReply → Prop
  | .page entries => entries = index.listManifest after manifestPageSize ∨ manifestPageSize < entries.length ∨
      entries ≠ [] ∧ namesFollow after entries = false
  | _ => True

inductive ReconcileStep : Reconciliation → Reconciliation → Prop where
  /- Anything else that happens on the node and on the peer. -/
  | world {c : Reconciliation} {w : World} (h : WorldStep cfg peer batchLimit c.world w) :
      ReconcileStep c { c with world := w }
  | index {c : Reconciliation} (s : Store) : ReconcileStep c (c.reindex s)
  /- The pass. It may be given up at any time, as its context is done or the process ends. -/
  | start {c : Reconciliation} (h : c.pass = none) : ReconcileStep c c.begin
  | abandon {c : Reconciliation} : ReconcileStep c { c with pass := none }
  | pause {c : Reconciliation} {p : Pass} (hp : c.pass = some p) (hphase : p.phase = .asking) (hset : 0 < pageBudget)
      (hspent : pageBudget ≤ p.pages) (saved : Bool) : ReconcileStep c (c.settle saved p.after)
  | serve {c : Reconciliation} {p : Pass} (hp : c.pass = some p) (hphase : p.phase = .asking)
      (hbudget : ¬ (0 < pageBudget ∧ pageBudget ≤ p.pages)) (reply : ManifestReply)
      (hreply : reply.Served c.index p.after) :
      ReconcileStep c { c with pass := some { p with pages := p.pages + 1, phase := .answered reply } }
  | receive {c : Reconciliation} {p : Pass} {reply : ManifestReply} (hp : c.pass = some p)
      (hphase : p.phase = .answered reply) (saved : Bool) : ReconcileStep c (c.receive p saved reply)
  | compare {c : Reconciliation} {p : Pass} {page : List FileMeta} (hp : c.pass = some p)
      (hphase : p.phase = .served page) (fenced : String → Bool) :
      ReconcileStep c { c with pass := some { p with phase := .compared page c.world.node.store.getFile fenced } }
  | lookupFailed {c : Reconciliation} {p : Pass} {page : List FileMeta} (hp : c.pass = some p)
      (hphase : p.phase = .served page) (saved : Bool) : ReconcileStep c (c.interrupted p saved)
  | enqueue {c : Reconciliation} {p : Pass} {page : List FileMeta} {rows : String → Option FileMeta}
      {fenced : String → Bool} (hp : c.pass = some p) (hphase : p.phase = .compared page rows fenced) (now : Int)
      (saved : Bool) : ReconcileStep c (c.enqueue cfg peer p page rows fenced now saved)
  | enqueueFailed {c : Reconciliation} {p : Pass} {page : List FileMeta} {rows : String → Option FileMeta}
      {fenced : String → Bool} (hp : c.pass = some p) (hphase : p.phase = .compared page rows fenced) (saved : Bool) :
      ReconcileStep c (c.interrupted p saved)

end

theorem Store.byName_sorted (s : Store) : s.byName.Pairwise fun a b => a.name < b.name := by
  have hle : s.byName.Pairwise fun a b => a.name ≤ b.name := by
    have : Std.Total fun a b : FileMeta => a.name ≤ b.name := ⟨fun a b => le_total _ _⟩
    have : IsTrans FileMeta fun a b => a.name ≤ b.name := ⟨fun a b c => le_trans⟩
    exact List.pairwise_insertionSort _ _
  have hperm : s.byName.Perm s.files.rows := List.perm_insertionSort _ _
  have hne : s.byName.Pairwise fun a b => a.name ≠ b.name :=
    List.pairwise_map.mp ((hperm.map FileMeta.name).nodup_iff.mpr s.files.unique)
  exact hle.imp₂ (fun a b h hne => lt_of_le_of_ne h hne) hne

variable {e : FileMeta} {s : Store}

theorem Store.mem_byName : e ∈ s.byName ↔ e ∈ s.files.rows :=
  List.mem_insertionSort _

variable {after : String} {page : List FileMeta}

theorem exists_lastName (hne : page ≠ []) :
    ∃ e ∈ page, lastName after page = e.name := by
  refine ⟨page.getLast hne, List.getLast_mem hne, ?_⟩
  rw [lastName, List.getLast?_eq_some_getLast hne]
  rfl

theorem lastName_lt (hne : page ≠ []) (h : namesFollow after page = true) :
    after < lastName after page := by
  induction page generalizing after with
  | nil => exact absurd rfl hne
  | cons e es ih =>
    rw [namesFollow, Bool.and_eq_true, decide_eq_true_iff] at h
    cases es with
    | nil => exact h.1
    | cons e' es =>
      have hlast : lastName after (e :: e' :: es) = lastName e.name (e' :: es) := by
        rw [lastName, lastName, List.getLast?_cons_cons, List.getLast?_eq_some_getLast (List.cons_ne_nil e' es)]
        rfl
      rw [hlast]
      exact h.1.trans (ih (List.cons_ne_nil _ _) h.2)

theorem mem_of_mem_listManifest {limit : Nat} (h : e ∈ s.listManifest after limit) : e ∈ s.files.rows :=
  Store.mem_byName.mp (Paging.mem_rest.mp (List.mem_of_mem_take h)).1

theorem not_lt_of_listManifest_nil (hnil : s.listManifest after manifestPageSize = []) (he : e ∈ s.files.rows) : ¬ after < e.name := by
  intro hafter
  have hrest : e ∈ Paging.rest FileMeta.name s.byName after := Paging.mem_rest.mpr ⟨Store.mem_byName.mpr he, hafter⟩
  rw [Store.listManifest, List.take_eq_nil_iff] at hnil
  rcases hnil with hsize | hnone
  · exact absurd hsize (by decide)
  · rw [hnone] at hrest
    cases hrest

theorem mem_listManifest_of_le (he : e ∈ s.files.rows)
    (hafter : after < e.name) (hle : e.name ≤ lastName after (s.listManifest after manifestPageSize)) :
    e ∈ s.listManifest after manifestPageSize := by
  have hrest : e ∈ Paging.rest FileMeta.name s.byName after := Paging.mem_rest.mpr ⟨Store.mem_byName.mpr he, hafter⟩
  have hne : s.listManifest after manifestPageSize ≠ [] := fun hnil => not_lt_of_listManifest_nil hnil he hafter
  obtain ⟨y, hy, hlast⟩ := @exists_lastName after _ hne
  exact Paging.mem_take_rest s.byName_sorted hrest hy (hlast ▸ hle)

section
variable (cfg : Config) (peer : String) (batchLimit : Nat)

namespace Reconciliation

variable (c : Reconciliation)

def Compared (e : FileMeta) : Prop := ∃ x ∈ c.log, e ∈ x.1 ∧ x.2.Covers peer e

def ComparedTo (position : String) : Prop :=
  ∀ e, c.kept e → Usable cfg e → e.name ≤ position → c.Compared peer e

end Reconciliation

structure PageOk (kept : FileMeta → Prop) (names : List String) (after : String) (page : List FileMeta) : Prop where
  named : ∀ e ∈ page, e.name ∈ names
  ne_nil : ∀ e, kept e → after < e.name → page ≠ []
  whole : ∀ e, kept e → after < e.name → e.name ≤ lastName after page → e ∈ page

structure PageTaken (kept : FileMeta → Prop) (names : List String) (after : String) (page : List FileMeta) : Prop
    extends PageOk kept names after page where
  nonempty : page ≠ []
  follows : namesFollow after page = true

def PhaseOk (kept : FileMeta → Prop) (store : Store) (names : List String) (after : String) : PassPhase → Prop
  | .asking => True
  | .answered (.page entries) => manifestPageSize < entries.length ∨
      entries ≠ [] ∧ namesFollow after entries = false ∨ PageOk kept names after entries
  | .answered _ => True
  | .served page => PageTaken kept names after page
  | .compared page rows _ => PageTaken kept names after page ∧ ∀ n, StateLe (rows n) (store.getFile n)

structure Pass.Advancing (p : Pass) : Prop where
  rising : p.trail.Pairwise (· > ·)
  head : p.trail.head? = some p.after
  taken : ∀ position ∈ p.trail.dropLast, position ∈ p.names
  asking : p.phase = .asking → p.pages + 1 = p.trail.length
  busy : p.phase ≠ .asking → p.pages = p.trail.length

structure Reconciliation.Sound (c : Reconciliation) : Prop where
  followed : Followed cfg peer batchLimit c.world
  kept : ∀ e, c.kept e → e ∈ c.index.files.rows
  stored : c.ComparedTo cfg peer c.position
  done : c.completed = true → ∀ e, c.kept e → Usable cfg e → c.Compared peer e
  reached : ∀ p, c.pass = some p → c.ComparedTo cfg peer p.after
  named : ∀ p, c.pass = some p → ∀ e ∈ c.index.files.rows, e.name ∈ p.names
  phase : ∀ p, c.pass = some p → PhaseOk c.kept c.world.node.store p.names p.after p.phase
  advancing : ∀ p, c.pass = some p → p.Advancing

variable {cfg peer batchLimit} {pageBudget : Nat} {c c' : Reconciliation}

theorem comparedTo_empty (c : Reconciliation) : c.ComparedTo cfg peer "" := by
  intro e _ husable hle
  have hname : e.name ≠ "" := ne_empty_of_validateSyncName (metadataOk_of_validateChange husable).name
  have hpos : "" < e.name := by
    rw [String.lt_iff_toList_lt]
    cases hlist : e.name.toList with
    | nil => exact absurd (String.toList_inj.mp hlist) hname
    | cons a l => exact List.nil_lt_cons a l
  exact absurd hpos (not_lt.mpr hle)

variable {phase : PassPhase}

theorem PhaseOk.forward {kept : FileMeta → Prop} {s t : Store} {names : List String}
    (h : PhaseOk kept s names after phase) (hforward : s.Forward t) : PhaseOk kept t names after phase := by
  cases phase with
  | asking => trivial
  | answered reply => cases reply <;> exact h
  | served page => exact h
  | compared page rows fenced => exact ⟨h.1, fun n => stateLe_trans (h.2 n) (hforward n)⟩

theorem PageOk.reindex {kept kept' : FileMeta → Prop} {names names' : List String}
    (h : PageOk kept names after page) (hkept : ∀ e, kept' e → kept e) (hnames : ∀ name ∈ names, name ∈ names') :
    PageOk kept' names' after page where
  named e he := hnames _ (h.named e he)
  ne_nil e he := h.ne_nil e (hkept e he)
  whole e he := h.whole e (hkept e he)

theorem PhaseOk.reindex {kept kept' : FileMeta → Prop} {names names' : List String}
    (h : PhaseOk kept s names after phase) (hkept : ∀ e, kept' e → kept e)
    (hnames : ∀ name ∈ names, name ∈ names') : PhaseOk kept' s names' after phase := by
  have htaken {page : List FileMeta} (hok : PageTaken kept names after page) : PageTaken kept' names' after page :=
    ⟨hok.toPageOk.reindex hkept hnames, hok.nonempty, hok.follows⟩
  cases phase with
  | asking => trivial
  | answered reply =>
    cases reply with
    | page entries => exact h.imp_right (Or.imp_right fun hok => hok.reindex hkept hnames)
    | _ => trivial
  | served page => exact htaken h
  | compared page rows fenced => exact ⟨htaken h.1, h.2⟩

namespace Reconciliation.Sound

theorem leave (h : c.Sound cfg peer batchLimit) {position : String} (hposition : c.ComparedTo cfg peer position)
    {completed : Bool} (hdone : completed = true → ∀ e, c.kept e → Usable cfg e → c.Compared peer e) :
    Reconciliation.Sound cfg peer batchLimit
      { c with pass := none, position := position, completed := completed } where
  followed := h.followed
  kept := h.kept
  stored := hposition
  done := hdone
  reached := nofun
  named := nofun
  phase := nofun
  advancing := nofun

theorem settle (h : c.Sound cfg peer batchLimit) {position : String} (hposition : c.ComparedTo cfg peer position)
    (saved : Bool) : (c.settle saved position).Sound cfg peer batchLimit := by
  refine h.leave ?_ h.done
  cases saved with
  | true => exact hposition
  | false => exact h.stored

theorem world (h : c.Sound cfg peer batchLimit) {w : World} (hstep : WorldStep cfg peer batchLimit c.world w) :
    Reconciliation.Sound cfg peer batchLimit { c with world := w } where
  followed := h.followed.worldStep hstep
  kept := h.kept
  stored := h.stored
  done := h.done
  reached := h.reached
  named := h.named
  phase p hp := (h.phase p hp).forward (h.followed.steady hstep).forward
  advancing := h.advancing

theorem index (h : c.Sound cfg peer batchLimit) (s : Store) : (c.reindex s).Sound cfg peer batchLimit := by
  refine ⟨h.followed, fun e he => he.2, fun e he => h.stored e he.1, fun hdone e he => h.done hdone e he.1, ?_, ?_, ?_, ?_⟩
  all_goals
    intro q hq
    obtain ⟨p, hp, rfl⟩ := Option.map_eq_some_iff.mp hq
  · exact fun e he => h.reached p hp e he.1
  · exact fun e he => List.mem_append_left _ (List.mem_map_of_mem he)
  · exact (h.phase p hp).reindex (fun _ he => he.1) fun _ hname => List.mem_append_right _ hname
  · have hadvancing := h.advancing p hp
    exact ⟨hadvancing.rising, hadvancing.head, fun position hposition =>
      List.mem_append_right _ (hadvancing.taken position hposition), hadvancing.asking, hadvancing.busy⟩

theorem advancing_start (position : String) (names : List String) :
    Pass.Advancing { after := position, trail := [position], names := names } where
  rising := List.pairwise_singleton _ _
  head := rfl
  taken := nofun
  asking _ := rfl
  busy h := absurd rfl h

theorem start (h : c.Sound cfg peer batchLimit) : c.begin.Sound cfg peer batchLimit := by
  unfold Reconciliation.begin
  dsimp only
  split
  · next hempty =>
    have hnothing {d : Reconciliation} : d.ComparedTo cfg peer c.position := by
      rw [hempty]
      exact comparedTo_empty d
    refine ⟨h.followed, fun _ he => he, hnothing, nofun, ?_, ?_, ?_, ?_⟩
    all_goals
      intro p hp
      cases hp
    · exact hnothing
    · exact fun e he => List.mem_map_of_mem he
    · trivial
    · exact advancing_start _ _
  · refine ⟨h.followed, h.kept, h.stored, nofun, ?_, ?_, ?_, ?_⟩
    all_goals
      intro p hp
      cases hp
    · exact h.stored
    · exact fun e he => List.mem_map_of_mem he
    · trivial
    · exact advancing_start _ _

variable {p : Pass}

theorem move (h : c.Sound cfg peer batchLimit) (hp : c.pass = some p) {pages : Nat}
    (hphase : PhaseOk c.kept c.world.node.store p.names p.after phase) (hbusy : phase ≠ .asking)
    (hpages : pages = p.trail.length) :
    Reconciliation.Sound cfg peer batchLimit { c with pass := some { p with pages := pages, phase := phase } } := by
  have hadvancing := h.advancing p hp
  refine ⟨h.followed, h.kept, h.stored, h.done, ?_, ?_, ?_, ?_⟩
  all_goals
    intro q hq
    cases hq
  · exact h.reached p hp
  · exact h.named p hp
  · exact hphase
  · exact ⟨hadvancing.rising, hadvancing.head, hadvancing.taken, fun hask => absurd hask hbusy, fun _ => hpages⟩

theorem pageOk_listManifest (h : c.Sound cfg peer batchLimit) (hp : c.pass = some p) :
    PageOk c.kept p.names p.after (c.index.listManifest p.after manifestPageSize) where
  named e he := h.named p hp e (mem_of_mem_listManifest he)
  ne_nil e he hafter hnil := not_lt_of_listManifest_nil hnil (h.kept e he) hafter
  whole e he := mem_listManifest_of_le (h.kept e he)

theorem serve (h : c.Sound cfg peer batchLimit) (hp : c.pass = some p) (hphase : p.phase = .asking)
    {reply : ManifestReply} (hreply : reply.Served c.index p.after) :
    Reconciliation.Sound cfg peer batchLimit
      { c with pass := some { p with pages := p.pages + 1, phase := .answered reply } } := by
  refine h.move hp ?_ nofun ((h.advancing p hp).asking hphase)
  cases reply with
  | page entries =>
    rcases hreply with rfl | hlong | hbad
    · exact Or.inr (Or.inr (h.pageOk_listManifest hp))
    · exact Or.inl hlong
    · exact Or.inr (Or.inl hbad)
  | _ => trivial

theorem receive (h : c.Sound cfg peer batchLimit) (hp : c.pass = some p) {reply : ManifestReply}
    (hphase : p.phase = .answered reply) (saved : Bool) : (c.receive p saved reply).Sound cfg peer batchLimit := by
  have hstop : (c.interrupted p saved).Sound cfg peer batchLimit := h.settle (h.reached p hp) saved
  have hok := h.phase p hp
  have hpages : p.pages = p.trail.length := (h.advancing p hp).busy (by rw [hphase]; nofun)
  rw [hphase] at hok
  cases reply with
  | failed => exact hstop
  | badStatus => exact hstop
  | undecodable => exact hstop
  | notFound => exact h.settle (comparedTo_empty c) saved
  | page entries =>
    simp only [Reconciliation.receive]
    split
    · exact h.leave h.stored h.done
    · next hshort =>
      split
      · next hnil =>
        -- an empty page is one of the manifest, so all that was kept lies before the position
        have hall : ∀ e, c.kept e → Usable cfg e → c.Compared peer e := by
          intro e he husable
          refine h.reached p hp e he husable (not_lt.mp fun hafter => ?_)
          rcases hok with hlong | ⟨hne, -⟩ | hpage
          · exact hshort hlong
          · exact hne hnil
          · exact hpage.ne_nil e he hafter hnil
        cases saved with
        | true => exact h.leave (comparedTo_empty c) fun _ => hall
        | false => exact h.leave h.stored nofun
      · next hne =>
        split
        · exact h.leave h.stored h.done
        · next hfollows =>
          have hfollows : namesFollow p.after entries = true := by simpa using hfollows
          have hpage : PageOk c.kept p.names p.after entries := by
            rcases hok with hlong | ⟨-, hbad⟩ | hpage
            · exact absurd hlong hshort
            · rw [hfollows] at hbad
              cases hbad
            · exact hpage
          exact h.move hp ⟨hpage, hne, hfollows⟩ nofun hpages

theorem compare (h : c.Sound cfg peer batchLimit) (hp : c.pass = some p)
    (hphase : p.phase = .served page) (fenced : String → Bool) :
    Reconciliation.Sound cfg peer batchLimit
      { c with pass := some { p with phase := .compared page c.world.node.store.getFile fenced } } := by
  have hpage := h.phase p hp
  have hpages : p.pages = p.trail.length := (h.advancing p hp).busy (by rw [hphase]; nofun)
  rw [hphase] at hpage
  exact h.move hp ⟨hpage, Store.Forward.refl _⟩ nofun hpages

theorem advancing_next (h : p.Advancing) (hbusy : p.phase ≠ .asking)
    {kept : FileMeta → Prop} (hpage : PageTaken kept p.names p.after page) :
    Pass.Advancing { p with
      after := lastName p.after page
      phase := .asking
      trail := lastName p.after page :: p.trail } := by
  obtain ⟨tail, htrail⟩ : ∃ tail, p.trail = p.after :: tail := List.head?_eq_some_iff.mp h.head
  have hrising : (p.after :: tail).Pairwise (· > ·) := htrail ▸ h.rising
  have hlast : p.after < lastName p.after page := lastName_lt hpage.nonempty hpage.follows
  refine ⟨List.pairwise_cons.mpr ⟨fun position hposition => ?_, h.rising⟩, rfl, fun position hposition => ?_,
    fun _ => by rw [h.busy hbusy]; rfl, fun h => absurd rfl h⟩
  · rw [htrail] at hposition
    rcases List.mem_cons.mp hposition with rfl | hposition
    · exact hlast
    · exact ((List.pairwise_cons.mp hrising).1 position hposition).trans hlast
  · rw [htrail, List.dropLast_cons_cons, ← htrail] at hposition
    rcases List.mem_cons.mp hposition with rfl | hposition
    · obtain ⟨e, he, heq⟩ := @exists_lastName p.after _ hpage.nonempty
      rw [heq]
      exact hpage.named e he
    · exact h.taken position hposition

theorem enqueue (h : c.Sound cfg peer batchLimit) {rows : String → Option FileMeta}
    {fenced : String → Bool} (hp : c.pass = some p) (hphase : p.phase = .compared page rows fenced) (now : Int)
    (saved : Bool) : (c.enqueue cfg peer p page rows fenced now saved).Sound cfg peer batchLimit := by
  obtain ⟨hpage, hrows⟩ : PageTaken c.kept p.names p.after page ∧ ∀ n, StateLe (rows n) (c.world.node.store.getFile n) := by
    have hok := h.phase p hp
    rwa [hphase] at hok
  have hadvancing := h.advancing p hp
  have hstep : WorldStep cfg peer batchLimit c.world (c.world.withStore (c.world.node.store.enqueueChanges
      cfg.repairLimit now peer "reconcile" (newerThanLocal rows fenced (usableChanges cfg page))).2) :=
    .reconcilePage page rows fenced now
  have hworld := h.world hstep
  have hsteady := h.followed.steady hstep
  unfold Reconciliation.enqueue
  dsimp only
  split
  · exact hworld.settle (hworld.reached p hp) saved
  · next hfits =>
    have hcovers {e : FileMeta} (he : e ∈ page) (husable : Usable cfg e) :
        (c.world.node.store.enqueueChanges cfg.repairLimit now peer "reconcile"
          (newerThanLocal rows fenced (usableChanges cfg page))).2.Covers peer e := by
      rcases @mem_newerThanLocal rows fenced _ e (mem_usableChanges.mpr ⟨he, husable⟩) with hwanted | hle
      · exact Or.inr (Store.queuedAtLeast_enqueueChanges hfits hwanted)
      · exact Or.inl (stateLe_trans (stateLe_trans hle (hrows e.name)) (hsteady.forward e.name))
    have hlogged {e : FileMeta} (he : c.Compared peer e) :
        ∃ x ∈ (page, (c.world.node.store.enqueueChanges cfg.repairLimit now peer "reconcile"
          (newerThanLocal rows fenced (usableChanges cfg page))).2) :: c.log, e ∈ x.1 ∧ x.2.Covers peer e := by
      obtain ⟨x, hx, hmem⟩ := he
      exact ⟨x, List.mem_cons_of_mem _ hx, hmem⟩
    have hbusy : p.phase ≠ .asking := by
      rw [hphase]
      nofun
    refine ⟨hworld.followed, h.kept, fun e he husable hle => hlogged (h.stored e he husable hle),
      fun hdone e he husable => hlogged (h.done hdone e he husable), ?_, ?_, ?_, ?_⟩
    all_goals
      intro q hq
      cases hq
    · intro e he husable hle
      by_cases hbefore : e.name ≤ p.after
      · exact hlogged (h.reached p hp e he husable hbefore)
      · have hmem := hpage.whole e he (not_le.mp hbefore) hle
        exact ⟨_, List.mem_cons_self, hmem, hcovers hmem husable⟩
    · exact h.named p hp
    · trivial
    · exact advancing_next hadvancing hbusy hpage

theorem step (h : c.Sound cfg peer batchLimit) (hstep : ReconcileStep cfg peer batchLimit pageBudget c c') :
    c'.Sound cfg peer batchLimit := by
  cases hstep with
  | world hworld => exact h.world hworld
  | index s => exact h.index s
  | start _ => exact h.start
  | abandon => exact h.leave h.stored h.done
  | pause hp _ _ _ saved => exact h.settle (h.reached _ hp) saved
  | serve hp hphase _ reply hreply => exact h.serve hp hphase hreply
  | receive hp hphase saved => exact h.receive hp hphase saved
  | compare hp hphase fenced => exact h.compare hp hphase fenced
  | lookupFailed hp _ saved => exact h.settle (h.reached _ hp) saved
  | enqueue hp hphase now saved => exact h.enqueue hp hphase now saved
  | enqueueFailed hp _ saved => exact h.settle (h.reached _ hp) saved

end Reconciliation.Sound

theorem Pass.Advancing.pages_le {p : Pass} (h : p.Advancing) : p.pages ≤ p.names.toFinset.card + 1 := by
  have hcount : p.pages ≤ p.trail.length := by
    by_cases hphase : p.phase = .asking
    · exact (h.asking hphase) ▸ Nat.le_succ _
    · exact (h.busy hphase).le
  have hnodup : p.trail.dropLast.Nodup := (h.rising.imp fun hgt => ne_of_gt hgt).sublist (List.dropLast_sublist _)
  have hsubset : p.trail.dropLast.toFinset ⊆ p.names.toFinset := by
    intro position hposition
    exact List.mem_toFinset.mpr (h.taken position (List.mem_toFinset.mp hposition))
  have hcard := Finset.card_le_card hsubset
  rw [List.toFinset_card_of_nodup hnodup, List.length_dropLast] at hcard
  omega

structure Reconciliation.Begins (cfg : Config) (peer : String) (c : Reconciliation) : Prop where
  world : c.world.Begins cfg peer
  position : c.position = ""
  pass : c.pass = none
  completed : c.completed = false
  kept : ∀ e, ¬ c.kept e

theorem Reconciliation.Begins.sound (h : c.Begins cfg peer) (batchLimit : Nat) : c.Sound cfg peer batchLimit where
  followed := h.world.followed batchLimit
  kept e he := absurd he (h.kept e)
  stored e he := absurd he (h.kept e)
  done hdone := absurd (h.completed.symm.trans hdone) Bool.false_ne_true
  reached _ hp := absurd (h.pass.symm.trans hp) nofun
  named _ hp := absurd (h.pass.symm.trans hp) nofun
  phase _ hp := absurd (h.pass.symm.trans hp) nofun
  advancing _ hp := absurd (h.pass.symm.trans hp) nofun

theorem Reconciliation.Begins.reaches {c₀ : Reconciliation} (h₀ : c₀.Begins cfg peer)
    (h : ReflTransGen (ReconcileStep cfg peer batchLimit pageBudget) c₀ c) : c.Sound cfg peer batchLimit := by
  induction h with
  | refl => exact h₀.sound batchLimit
  | tail _ hstep ih => exact ih.step hstep

end

/-- When a pass reports that it is through, every entry of the manifest that has been the same since
the cycle began, and that can be used here, was on a page of the cycle and held or queued right after
it. Within a pass the position rises with each page, and the number of its pages is bounded by the
number of names in the manifest. -/
theorem reconciliation_covers (cfg : Config) (peer : String) (batchLimit pageBudget : Nat) {c₀ c : Reconciliation}
    (h₀ : c₀.Begins cfg peer) (h : ReflTransGen (ReconcileStep cfg peer batchLimit pageBudget) c₀ c) :
    (c.completed = true → ∀ e, c.kept e → validateChange cfg.digest cfg.patterns e = .ok () →
      ∃ x ∈ c.log, e ∈ x.1 ∧ (StateLe (some e) (x.2.getFile e.name) ∨ x.2.QueuedAtLeast (peer, e.name) e)) ∧
    ∀ p, c.pass = some p → p.trail.Pairwise (· > ·) ∧ p.trail.head? = some p.after ∧
      p.pages ≤ p.names.toFinset.card + 1 := by
  have hsound := h₀.reaches h
  constructor
  · intro hdone e he husable
    exact hsound.done hdone e he husable
  · intro p hp
    have hadvancing := hsound.advancing p hp
    exact ⟨hadvancing.rising, hadvancing.head, hadvancing.pages_le⟩

def beforePass : Reconciliation := { world := beforePoll, index := peerWithA.store }

theorem beforePass_begins : beforePass.Begins plainConfig "p" where
  world := beforePoll_begins
  position := rfl
  pass := rfl
  completed := rfl
  kept _ := id

variable {c : Reconciliation}

theorem receive_page {p : Pass} {saved : Bool} {entries : List FileMeta}
    (hlen : entries.length ≤ manifestPageSize) (hne : entries ≠ []) (hfollows : namesFollow p.after entries = true) :
    c.receive p saved (.page entries) = { c with pass := some { p with phase := .served entries } } := by
  simp only [Reconciliation.receive, if_neg (not_lt.mpr hlen), if_neg hne, hfollows, Bool.not_true, Bool.false_eq_true,
    if_false]

theorem enqueue_page {cfg : Config} {peer : String} {p : Pass}
    {rows : String → Option FileMeta} {fenced : String → Bool} {now : Int} {saved : Bool}
    {r : (Nat × Option Err) × Store} (hr : c.world.node.store.enqueueChanges cfg.repairLimit now peer "reconcile"
      (newerThanLocal rows fenced (usableChanges cfg page)) = r) (hfits : r.1.2 = none) :
    c.enqueue cfg peer p page rows fenced now saved = { c with
      world := c.world.withStore r.2
      pass := some { p with
        after := lastName p.after page, phase := .asking, trail := lastName p.after page :: p.trail }
      log := (page, r.2) :: c.log } := by
  simp only [Reconciliation.enqueue, hr, hfits]

theorem one_page_pass (cfg : Config) (peer : String) (batchLimit : Nat) (hpass : c.pass = none)
    (hposition : c.position = "") (hpage : c.index.listManifest "" manifestPageSize = page)
    (hne : page ≠ []) (hfollows : namesFollow "" page = true)
    (hend : c.index.listManifest (lastName "" page) manifestPageSize = [])
    {r : (Nat × Option Err) × Store} (hr : c.world.node.store.enqueueChanges cfg.repairLimit 0 peer "reconcile"
      (newerThanLocal c.world.node.store.getFile (fun _ => false) (usableChanges cfg page)) = r) (hfits : r.1.2 = none) :
    ∃ c', ReflTransGen (ReconcileStep cfg peer batchLimit 0) c c' ∧ c'.completed = true ∧
      ∀ e ∈ c.index.files.rows, c'.kept e := by
  have hlen : page.length ≤ manifestPageSize := hpage ▸ List.length_take_le _ _
  let p : Pass := { after := "", trail := [""], names := c.index.files.rows.map FileMeta.name }
  let begun : Reconciliation :=
    { c with kept := (· ∈ c.index.files.rows), log := [], completed := false, pass := some p }
  have hbegin : c.begin = begun := by
    simp only [Reconciliation.begin, hposition, if_true, begun, p]
  let answered (p : Pass) (entries : List FileMeta) : Pass := { p with pages := p.pages + 1, phase := .answered (.page entries) }
  let asked : Reconciliation := { begun with pass := some (answered p page) }
  let taken : Reconciliation := { begun with pass := some { p with pages := 1, phase := .served page } }
  have htaken : asked.receive (answered p page) true (.page page) = taken := receive_page hlen hne hfollows
  let compared : Reconciliation := { taken with
    pass := some { p with pages := 1, phase := .compared page c.world.node.store.getFile fun _ => false } }
  let after : Pass := { p with pages := 1, after := lastName "" page, trail := [lastName "" page, ""] }
  let queued : Reconciliation := { begun with
    world := c.world.withStore r.2
    pass := some after
    log := [(page, r.2)] }
  have hqueued : compared.enqueue cfg peer { p with
      pages := 1, phase := .compared page c.world.node.store.getFile fun _ => false } page c.world.node.store.getFile
      (fun _ => false) 0 true = queued := enqueue_page hr hfits
  have hbudget {pages : Nat} : ¬ (0 < 0 ∧ 0 ≤ pages) := fun h => Nat.lt_irrefl 0 h.1
  have hstart : ReconcileStep cfg peer batchLimit 0 c c.begin := .start hpass
  have hserve : ReconcileStep cfg peer batchLimit 0 begun asked :=
    ReconcileStep.serve (c := begun) (p := p) rfl rfl hbudget (.page page) (Or.inl hpage.symm)
  have hreceive : ReconcileStep cfg peer batchLimit 0 asked (asked.receive (answered p page) true (.page page)) :=
    ReconcileStep.receive (c := asked) rfl rfl true
  have hcompare : ReconcileStep cfg peer batchLimit 0 taken compared :=
    ReconcileStep.compare (c := taken) rfl rfl fun _ => false
  have henqueue : ReconcileStep cfg peer batchLimit 0 compared _ :=
    ReconcileStep.enqueue (c := compared) rfl rfl 0 true
  let last : Reconciliation := { queued with pass := some (answered after []) }
  have hlast : ReconcileStep cfg peer batchLimit 0 queued last :=
    ReconcileStep.serve (c := queued) (p := after) rfl rfl hbudget (.page []) (Or.inl hend.symm)
  have hfinish : ReconcileStep cfg peer batchLimit 0 last (last.receive (answered after []) true (.page [])) :=
    ReconcileStep.receive (c := last) rfl rfl true
  rw [hbegin] at hstart
  rw [htaken] at hreceive
  rw [hqueued] at henqueue
  have hrun := ReflTransGen.head hserve (.head hreceive (.head hcompare (.head henqueue (.head hlast (.single hfinish)))))
  exact ⟨_, .head hstart hrun, rfl, fun e he => he⟩

theorem reconciliation_covers_one_page : ∃ c : Reconciliation,
    ReflTransGen (ReconcileStep plainConfig "p" 10 0) beforePass c ∧ c.completed = true ∧
      ∃ x ∈ c.log, { writtenA with version := 1 } ∈ x.1 ∧ (StateLe (some { writtenA with version := 1 }) (x.2.getFile "a") ∨
        x.2.QueuedAtLeast ("p", "a") { writtenA with version := 1 }) := by
  have hpage : peerWithA.store.listManifest "" manifestPageSize = [{ writtenA with version := 1 }] := by decide +kernel
  obtain ⟨c, hrun, hdone, hkept⟩ := one_page_pass plainConfig "p" 10 (c := beforePass) rfl rfl hpage (by decide +kernel)
    (by decide +kernel) (by decide +kernel) rfl (by decide +kernel)
  refine ⟨c, hrun, hdone, ?_⟩
  exact (reconciliation_covers plainConfig "p" 10 0 beforePass_begins hrun).1 hdone { writtenA with version := 1 }
    (hkept _ (by decide +kernel)) (by decide +kernel)

end BirakFormal
