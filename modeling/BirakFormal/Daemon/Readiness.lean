import BirakFormal.Daemon.Stream

/-!
# When a replica may serve

`ServingReady` reads the statistics of a peer, then the length of its queue, then switches.
The statistics are written at several points of a poll: a reply from a rebuilt peer brings
its epoch and its highest version next to the cursor of the peer's former life. As long as
the statistics describe the stored cursor, and no reply comes between, a node that switches
has caught up with what the peer announced last.
-/

namespace BirakFormal

open Tables Interruption Relation

/-- The statistics are read while they describe the stored cursor, and no reply arrives before
the decision is made. -/
def Orderly (peer : String) (w w' : World) : Prop :=
  (w.ready = .idle → w'.ready = .chosen →
    w.stat.epoch = (w.cursor peer).epoch ∧ w.stat.cursor ≤ (w.cursor peer).version) ∧
  (w.ready ≠ .idle → w'.latest = w.latest)

def Announces (r : Reply) (max : Int) : Prop := r.max = some max ∧ ∀ h ∈ r.held, h.version ≤ max

def PollAnnounces : Poll → Prop
  | .headed _ _ max => max.isSome = true
  | .served r => ∃ max, Announces r max
  | _ => True

section
variable (cfg : Config) (peer : String)

def ReadyOk (w : World) : Readiness → Prop
  | .idle => True
  | .chosen => ∃ r, w.latest = some r ∧ ∀ h ∈ r.held, Usable cfg h → w.node.store.Covers peer h
  | .counted => ∃ r, w.latest = some r ∧ ∀ h ∈ r.held, Usable cfg h → StateLe (some h) (w.node.store.getFile h.name)

structure Readied (w : World) : Prop where
  poll : PollAnnounces w.poll
  stat : w.stat.epoch ≠ "" → ∃ r, w.latest = some r ∧ r.epoch = w.stat.epoch ∧ Announces r w.stat.peerMaxVersion
  ready : ReadyOk cfg peer w w.ready

variable {cfg peer} {batchLimit : Nat} {w w' : World}

theorem ReadyOk.steady {r : Readiness} (h : ReadyOk cfg peer w r)
    (hs : Steady peer w.node.store w'.node.store) (hlatest : w'.latest = w.latest) :
    ReadyOk cfg peer w' r := by
  cases r with
  | idle => trivial
  | chosen =>
    obtain ⟨r, hr, hheld⟩ := h
    exact ⟨r, hlatest.trans hr, fun x hx hu => hs.covers x (hheld x hx hu)⟩
  | counted =>
    obtain ⟨r, hr, hheld⟩ := h
    refine ⟨r, hlatest.trans hr, fun x hx hu => ?_⟩
    have hle := hheld x hx hu
    have hrow := hs.forward x.name
    rw [stateLe_iff] at hle hrow ⊢
    exact hle.trans hrow

theorem Readied.steady (h : Readied cfg peer w) (hs : Steady peer w.node.store w'.node.store)
    (hpoll : PollAnnounces w'.poll) (hlatest : w'.latest = w.latest)
    (hepoch : w'.stat.epoch = w.stat.epoch) (hmax : w'.stat.peerMaxVersion = w.stat.peerMaxVersion)
    (hready : w'.ready = w.ready) : Readied cfg peer w' where
  poll := hpoll
  stat := by
    rw [hepoch, hmax, hlatest]
    exact h.stat
  ready := by
    rw [hready]
    exact h.ready.steady hs hlatest

theorem not_queuedAtLeast_of_queuedFor {s : Store} (h : queuedFor peer s.repairQueue = 0)
    (name : String) (m : FileMeta) : ¬ s.QueuedAtLeast (peer, name) m := by
  rintro ⟨row, kept, hfind, -, -⟩
  have hkey : row.key = (peer, name) := Table.find_key hfind
  have hnone := List.eq_nil_of_length_eq_zero h
  have hmem : row ∈ s.repairQueue.rows.filter (·.peer = peer) := by
    refine List.mem_filter.mpr ⟨Table.mem_rows_iff.mpr (hkey ▸ hfind), ?_⟩
    exact decide_eq_true (congrArg Prod.fst hkey)
  rw [hnone] at hmem
  cases hmem

theorem Readied.note (h : Readied cfg peer w) {r : Reply} (hp : w.poll = .served r)
    (hquiet : w.ready ≠ .idle → some r = w.latest) :
    Readied cfg peer { w with poll := .noted r, stat := w.stat.note r, latest := some r } := by
  have hpoll := h.poll
  rw [hp] at hpoll
  obtain ⟨max, hmax, hheld⟩ := hpoll
  refine ⟨trivial, fun _ => ⟨r, rfl, rfl, ?_⟩, ?_⟩
  · have hnoted : (w.stat.note r).peerMaxVersion = max :=
      congrArg (·.getD w.stat.peerMaxVersion) hmax
    change Announces r (w.stat.note r).peerMaxVersion
    rw [hnoted]
    exact ⟨hmax, hheld⟩
  · by_cases hidle : w.ready = .idle
    · change ReadyOk cfg peer _ w.ready
      rw [hidle]
      trivial
    · exact h.ready.steady (.refl _) (hquiet hidle)

theorem isSource_iff {st : PeerStat} : st.isSource = true ↔ st.reconciled = true ∧
    st.succeeded = true ∧ st.epoch ≠ "" ∧ st.peerMaxVersion ≤ st.cursor ∧ st.consecutiveErrs = 0 := by
  simp [PeerStat.isSource, and_assoc]

theorem isSource_note {st : PeerStat} {r : Reply} {max : Int} (h : st.isSource = true)
    (hne : r.epoch ≠ "") (hmax : r.max = some max) (hle : max ≤ r.state.version) :
    (st.note r).isSource = true := by
  obtain ⟨hreconciled, hsucceeded, -, -, herrs⟩ := isSource_iff.mp h
  have hmax' : (st.note r).peerMaxVersion = max := congrArg (·.getD st.peerMaxVersion) hmax
  exact isSource_iff.mpr ⟨hreconciled, hsucceeded, hne, hmax' ▸ hle, herrs⟩

theorem Readied.choose (h : Readied cfg peer w) (hf : Followed cfg peer batchLimit w)
    (hsource : w.stat.isSource = true) (hepoch : w.stat.epoch = (w.cursor peer).epoch)
    (hcursor : w.stat.cursor ≤ (w.cursor peer).version) :
    Readied cfg peer { w with ready := .chosen } := by
  refine ⟨h.poll, h.stat, ?_⟩
  obtain ⟨-, -, hne, hmax, -⟩ := isSource_iff.mp hsource
  obtain ⟨r, hr, hsame, -, hheld⟩ := h.stat hne
  refine ⟨r, hr, fun x hx hu => ?_⟩
  refine (hf.announced r hr).2 ?_ x hx hu ?_
  · rw [hsame, hepoch]
  · have := hheld x hx
    omega

theorem Readied.count (h : Readied cfg peer w) (hr : w.ready = .chosen)
    (hempty : queuedFor peer w.node.store.repairQueue = 0) :
    Readied cfg peer { w with ready := .counted } := by
  refine ⟨h.poll, h.stat, ?_⟩
  have hready := h.ready
  rw [hr] at hready
  obtain ⟨r, hlatest, hheld⟩ := hready
  refine ⟨r, hlatest, fun x hx hu => ?_⟩
  rcases hheld x hx hu with hle | hqueued
  · exact hle
  · exact absurd hqueued (not_queuedAtLeast_of_queuedFor hempty _ _)

theorem Readied.worldStep (h : Readied cfg peer w) (hf : Followed cfg peer batchLimit w)
    (hstep : WorldStep cfg peer batchLimit w w') (horder : Orderly peer w w') :
    Readied cfg peer w' := by
  have hs := hf.steady hstep
  cases hstep with
  | write | incarnate | succeed | fail | reconcilePage | reconciled | take | work | finish |
      underLock | external | otherPeer => exact h.steady hs h.poll rfl rfl rfl rfl
  | ask | reset | record | compare | advance | restat | abandon =>
    exact h.steady hs trivial rfl rfl rfl rfl
  | head hp => exact h.steady hs rfl rfl rfl rfl rfl
  | serve hp he page hpage =>
    have hpoll := h.poll
    rw [hp] at hpoll
    obtain ⟨max, rfl⟩ := Option.isSome_iff_exists.mp hpoll
    refine h.steady hs ⟨max, rfl, fun x hx => ?_⟩ rfl rfl rfl rfl
    simpa using (List.mem_filter.mp hx).2
  | note hp => exact h.note hp horder.2
  | enqueue hp now =>
    refine h.steady hs ?_ rfl rfl rfl rfl
    dsimp only
    split
    · trivial
    · trivial
  | restart hcut hstops => exact ⟨trivial, fun hne => absurd rfl hne, trivial⟩
  | choose hr hi hsource =>
    obtain ⟨hepoch, hcursor⟩ := horder.1 hr rfl
    exact h.choose hf hsource hepoch hcursor
  | count hr hempty => exact h.count hr hempty
  | goReady | giveUp => exact ⟨h.poll, h.stat, trivial⟩

theorem WorldStep.initialized (h : WorldStep cfg peer batchLimit w w')
    (hbefore : w.initialized = false) (hafter : w'.initialized = true) :
    w.ready = .counted ∧ w'.node = w.node ∧ w'.latest = w.latest := by
  cases h with
  | goReady hr => exact ⟨hr, rfl, rfl⟩
  | _ => exact absurd (hbefore.symm.trans hafter) Bool.false_ne_true

structure World.Fresh (cfg : Config) (peer : String) (w : World) : Prop extends
    World.Begins cfg peer w where
  stat : w.stat = {}
  ready : w.ready = .idle

theorem World.Fresh.readied {w₀ w : World} (h₀ : w₀.Fresh cfg peer)
    (h : ReflTransGen (fun a b => WorldStep cfg peer batchLimit a b ∧ Orderly peer a b) w₀ w) :
    Followed cfg peer batchLimit w ∧ Readied cfg peer w := by
  induction h with
  | refl =>
    refine ⟨h₀.followed batchLimit, ?_, ?_, ?_⟩
    · rw [h₀.poll]
      trivial
    · rw [h₀.stat]
      exact fun hne => absurd rfl hne
    · rw [h₀.ready]
      trivial
  | tail _ hlast ih => exact ⟨ih.1.worldStep hlast.1, ih.2.worldStep ih.1 hlast.1 hlast.2⟩

theorem World.fresh_of_empty_queue {node : Node} {source : Incarnation}
    (hsound : node.store.Sound) (hqueue : ∀ key, node.store.repairQueue.find key = none)
    (hcursor : node.store.getPeerState peer = {}) (hversioned : source.store.Versioned)
    (hne : source.epoch ≠ "") :
    World.Fresh cfg peer { node := node, source := source, epochs := [source.epoch] } where
  sound := hsound
  usable := fun key _ _ h => absurd ((hqueue key).symm.trans h) nofun
  counted := fun key _ h => absurd ((hqueue key).symm.trans h) nofun
  versioned := hversioned
  epoch_ne := hne
  epoch_mem := List.mem_singleton_self _
  cursor := hcursor
  poll := rfl
  workers := rfl
  latest := rfl
  stat := rfl
  ready := rfl

def holdingA : World where
  node := nodeWithA
  source := peerWithA
  epochs := [peerWithA.epoch]

def peerWithB : Incarnation where
  epoch := "second"
  store := { files := Table.empty.put { writtenA with name := "b", version := 1 }, lastVersion := 1 }

theorem holdingA_fresh : holdingA.Fresh plainConfig "p" := by
  have hempty : nodeWithA.store.repairQueue.rows = [] := by decide +kernel
  refine World.fresh_of_empty_queue nodeWithA_run.sound (fun key => ?_) (by decide +kernel)
    (Store.versioned_single rfl) (by decide)
  refine Table.find_eq_none_iff.mpr fun row hrow => ?_
  rw [hempty] at hrow
  cases hrow

variable {w₀ : World}

theorem orderly_tail (h : ReflTransGen (fun a b => WorldStep cfg peer batchLimit a b ∧
      Orderly peer a b) w₀ w) (hstep : WorldStep cfg peer batchLimit w w') (hw : w.ready = .idle)
    (hw' : w'.ready = .idle) :
    ReflTransGen (fun a b => WorldStep cfg peer batchLimit a b ∧ Orderly peer a b) w₀ w' :=
  h.tail ⟨hstep, fun _ hc => absurd (hw'.symm.trans hc) nofun, fun hne => absurd hw hne⟩

theorem orderly_rest_of_poll (h : ReflTransGen (fun a b => WorldStep cfg peer batchLimit a b ∧
      Orderly peer a b) w₀ w) {r : Reply} {wanted : List FileMeta} (hp : w.poll = .compared r wanted)
    (hw : w.ready = .idle) (now : Int)
    (hfits : (w.node.store.enqueueChanges cfg.repairLimit now peer "polled" wanted).1.2.isNone = true) :
    ReflTransGen (fun a b => WorldStep cfg peer batchLimit a b ∧ Orderly peer a b) w₀
      { w.withStore (advanceCursor peer
          (w.node.store.enqueueChanges cfg.repairLimit now peer "polled" wanted).2 r) with
        poll := .idle
        stat := { w.stat with cursor := r.batchMax, succeeded := true, consecutiveErrs := 0,
                              reconciled := true } } := by
  have h := orderly_tail h (.enqueue hp now) hw hw
  have h := orderly_tail h (.advance (if_pos hfits)) hw hw
  have h := orderly_tail h (.restat rfl) hw hw
  have h := orderly_tail h .succeed hw hw
  exact orderly_tail h .reconciled hw hw

end

structure CaughtUpOnA (w : World) : Prop where
  run : ReflTransGen (fun a b => WorldStep plainConfig "p" 10 a b ∧ Orderly "p" a b) holdingA w
  poll : w.poll = .idle
  ready : w.ready = .idle
  initialized : w.initialized = false
  epochs : w.epochs = ["first"]
  cursor : w.cursor "p" = { version := 1, epoch := "first" }
  source : w.stat.isSource = true
  stat : w.stat.epoch = "first" ∧ w.stat.cursor = 1
  queue : queuedFor "p" w.node.store.repairQueue = 0
  absent : w.node.store.getFile "b" = none
  held : ∃ r, w.latest = some r ∧ { writtenA with version := 1 } ∈ r.held

theorem caughtUpOnA : ∃ w : World, CaughtUpOnA w := by
  have h := orderly_tail (.refl : ReflTransGen (fun a b => WorldStep plainConfig "p" 10 a b ∧
    Orderly "p" a b) holdingA holdingA) (.ask rfl) rfl rfl
  have h := orderly_tail h (.head rfl) rfl rfl
  have h := orderly_tail h (.serve rfl rfl _ (Or.inl ⟨10, rfl⟩)) rfl rfl
  have h := orderly_tail h (.note rfl) rfl rfl
  have h := orderly_tail h (.record rfl (by decide +kernel)) rfl rfl
  have h := orderly_tail h (.compare rfl (by decide +kernel) (by decide +kernel) fun _ => false) rfl rfl
  have h := orderly_rest_of_poll h rfl rfl 0 (by decide +kernel)
  exact ⟨_, h, rfl, rfl, rfl, rfl, by decide +kernel, by decide +kernel, by decide +kernel,
    by decide +kernel, by decide +kernel, _, rfl, by decide +kernel⟩

end BirakFormal
