import BirakFormal.Daemon.Coverage

/-!
# The invariant of a node and its peer

What is true between any two steps: of the cursor, of the reply a poll is working on, of the
reply received last, and of the workers. One step keeps it, so every run does.
-/

namespace BirakFormal

open Tables Interruption Prog Relation

section
variable {cfg : Config}

theorem Replicating.applyChange {R : Node → Node → Prop} (U : Replicating cfg R) (m : FileMeta)
    (body : Bytes) : (applyChange cfg m body).Within R := by
  have F := U.upkeep.frame
  unfold BirakFormal.applyChange
  split
  · exact F.pure _
  · have hheld : (alreadyHeld m).Within R := by
      refine F.bind (F.look _) fun indexed => ?_
      split
      · exact F.pure _
      · exact F.bind (F.look _) fun fenced => F.pure _
    refine F.bind hheld.attempt fun held => ?_
    split
    · exact F.pure _
    · refine F.bind (U.decideChange m) fun pending => ?_
      split
      · exact F.pure _
      · exact U.applyDeletion m
      · exact U.downloadAndApply m body

theorem Section.queueMerged {s t : Node} (sec : Section) (hsec : sec.Allowed cfg)
    (h : (sec.prog cfg).Stops s t) : QueueMerged s t := by
  have U := queueMerged_replicating cfg
  have F := queueMergedFrame
  cases sec with
  | refresh name opts => exact (U.upkeep.refreshWith name opts).stops h
  | recover name => exact (U.upkeep.recover name).stops h
  | decide m => exact (F.bind (U.decideChange m) fun _ => F.pure ()).stops h
  | publish m temporary staged => exact (U.publishLocked m temporary staged).stops h
  | delete m => exact (U.applyDeletion m).stops h
  | download m body => exact (U.downloadAndApply m body).stops h
  | apply m body => exact (U.applyChange m body).stops h
  | preserve m source => exact (U.preserveConflictLocked m source).stops h
  | commit sources names published fn =>
    have hfn : fn.Within QueueMerged := hsec.mono fun _ _ => SameIndex.queueMerged
    exact (U.upkeep.commitPublishedLocked sources published hfn
      fun _ _ => queueMerged_beginLocal).stops h

theorem Section.quietly {s t : Node} (sec : Section) (hrec : s.recovered = true)
    (hsec : sec.Allowed cfg) (h : (sec.prog cfg).Stops s t) : Quietly s t :=
  (sec.onward hrec hsec h).quietly (sec.queueMerged hsec h)

end

section
variable (cfg : Config) (peer : String) (batchLimit : Nat)

def Usable (m : FileMeta) : Prop := validateChange cfg.digest cfg.patterns m = .ok ()

structure ReplyOk (w : World) (r : Reply) : Prop where
  epoch_ne : r.epoch ≠ ""
  epoch_mem : r.epoch ∈ w.epochs
  state_zero : r.state.epoch = "" → r.state.version = 0
  positive : ∀ h ∈ r.held, 0 < h.version
  held : r.state.epoch = r.epoch → ∀ h ∈ r.held, Usable cfg h → h.version ≤ r.state.version →
    w.node.store.Covers peer h
  names : pageAccepted batchLimit r.state.version r.page = true → ((r.page.getD []).map FileMeta.name).Nodup
  passed : pageAccepted batchLimit r.state.version r.page = true → ∀ h ∈ r.held,
    h.version ≤ r.batchMax → h.version ≤ r.state.version ∨ h ∈ r.page.getD []
  below : pageAccepted batchLimit r.state.version r.page = true → w.source.epoch = r.epoch →
    r.batchMax ≤ w.source.store.lastVersion
  passedRows : pageAccepted batchLimit r.state.version r.page = true → w.source.epoch = r.epoch →
    ∀ row ∈ w.source.store.files.rows, row.version ≤ r.batchMax →
      row.version ≤ r.state.version ∨ row ∈ r.page.getD []

structure Settled (w : World) (r : Reply) : Prop where
  reply : ReplyOk cfg peer batchLimit w r
  cursor : w.cursor peer = { version := r.state.version, epoch := r.epoch }
  latest : w.latest = some r
  fresh : r.state.epoch ≠ r.epoch → r.state.version = 0

def PollOk (w : World) : Poll → Prop
  | .idle => True
  | .asked state => state = w.cursor peer
  | .headed state epoch _ => state = w.cursor peer ∧ epoch ≠ "" ∧ epoch ∈ w.epochs
  | .served r => ReplyOk cfg peer batchLimit w r ∧ w.cursor peer = r.state
  | .noted r => ReplyOk cfg peer batchLimit w r ∧ w.cursor peer = r.state ∧ w.latest = some r
  | .recorded r => Settled cfg peer batchLimit w r
  | .compared r wanted => Settled cfg peer batchLimit w r ∧
      pageAccepted batchLimit r.state.version r.page = true ∧ (∀ e ∈ wanted, Usable cfg e) ∧
      ∀ e ∈ r.page.getD [], Usable cfg e → e ∈ wanted ∨ StateLe (some e) (w.node.store.getFile e.name)
  | .enqueued r => Settled cfg peer batchLimit w r ∧ pageAccepted batchLimit r.state.version r.page = true ∧
      ∀ e ∈ r.page.getD [], Usable cfg e → w.node.store.Covers peer e
  | .advanced _ => True

structure WorkerOk (s : Node) (x : RepairRow × Task Err Node Verdict) : Prop where
  running : s.Running
  peer_eq : x.1.peer = peer
  current : s.store.Current x.1
  named : ∀ m, x.1.metadata = some m → m.name = x.1.name
  clears : x.2.Meets Ongoing Quietly
    (fun verdict t => verdict = .resolve → ∀ m, x.1.metadata = some m → Attained m t) s

structure Followed (w : World) : Prop where
  sound : w.node.store.Sound
  usable : w.node.store.QueueUsable cfg peer
  counted : w.node.store.Counted
  versioned : w.source.store.Versioned
  epoch_ne : w.source.epoch ≠ ""
  epoch_mem : w.source.epoch ∈ w.epochs
  cursor_zero : (w.cursor peer).epoch = "" → (w.cursor peer).version = 0
  cursor_seen : (w.cursor peer).epoch = "" ∨ (w.cursor peer).epoch ∈ w.epochs
  cursor_le : (w.cursor peer).epoch = w.source.epoch → (w.cursor peer).version ≤ w.source.store.lastVersion
  covered : (w.cursor peer).epoch = w.source.epoch → ∀ row ∈ w.source.store.files.rows,
    Usable cfg row → row.version ≤ (w.cursor peer).version → w.node.store.Covers peer row
  announced : ∀ r, w.latest = some r → (∀ h ∈ r.held, 0 < h.version) ∧
    ((w.cursor peer).epoch = r.epoch → ∀ h ∈ r.held, Usable cfg h →
      h.version ≤ (w.cursor peer).version → w.node.store.Covers peer h)
  poll : PollOk cfg peer batchLimit w w.poll
  workers : ∀ x ∈ w.workers, WorkerOk peer w.node x

variable {cfg peer batchLimit} {w : World}

variable {r : Reply} {w' : World}

theorem ReplyOk.node (h : ReplyOk cfg peer batchLimit w r)
    (hs : Steady peer w.node.store w'.node.store) (hsource : w'.source = w.source)
    (hepochs : w'.epochs = w.epochs) : ReplyOk cfg peer batchLimit w' r where
  epoch_ne := h.epoch_ne
  epoch_mem := hepochs ▸ h.epoch_mem
  state_zero := h.state_zero
  positive := h.positive
  held := fun he x hx hu hle => hs.covers x (h.held he x hx hu hle)
  names := h.names
  passed := h.passed
  below := hsource ▸ h.below
  passedRows := hsource ▸ h.passedRows

theorem Settled.node (h : Settled cfg peer batchLimit w r)
    (hs : Steady peer w.node.store w'.node.store) (hsource : w'.source = w.source)
    (hepochs : w'.epochs = w.epochs) (hcursor : w'.cursor peer = w.cursor peer)
    (hlatest : w'.latest = w.latest) : Settled cfg peer batchLimit w' r where
  reply := h.reply.node hs hsource hepochs
  cursor := hcursor.trans h.cursor
  latest := hlatest.trans h.latest
  fresh := h.fresh

variable {p : Poll}

theorem PollOk.node (h : PollOk cfg peer batchLimit w p)
    (hs : Steady peer w.node.store w'.node.store) (hsource : w'.source = w.source)
    (hepochs : w'.epochs = w.epochs) (hcursor : w'.cursor peer = w.cursor peer)
    (hlatest : w'.latest = w.latest) : PollOk cfg peer batchLimit w' p := by
  cases p with
  | idle => trivial
  | asked state => exact Eq.trans h hcursor.symm
  | headed state epoch max => exact ⟨h.1.trans hcursor.symm, h.2.1, hepochs ▸ h.2.2⟩
  | served r => exact ⟨h.1.node hs hsource hepochs, hcursor.trans h.2⟩
  | noted r => exact ⟨h.1.node hs hsource hepochs, hcursor.trans h.2.1, hlatest.trans h.2.2⟩
  | recorded r => exact Settled.node h hs hsource hepochs hcursor hlatest
  | compared r wanted =>
    obtain ⟨hsettled, hpage, hwanted, hentries⟩ := h
    refine ⟨hsettled.node hs hsource hepochs hcursor hlatest, hpage, hwanted, fun e he hu => ?_⟩
    rcases hentries e he hu with hmem | hle
    · exact Or.inl hmem
    · have hrow := hs.forward e.name
      rw [stateLe_iff] at hle hrow
      exact Or.inr (stateLe_iff.mpr (hle.trans hrow))
  | enqueued r =>
    obtain ⟨hsettled, hpage, hentries⟩ := h
    exact ⟨hsettled.node hs hsource hepochs hcursor hlatest, hpage, fun e he hu => hs.covers e (hentries e he hu)⟩
  | advanced v => trivial

variable {s t : Node}

theorem WorkerOk.ongoing {x : RepairRow × Task Err Node Verdict}
    (h : WorkerOk peer s x) (hst : Ongoing s t) (hs : Steady peer s.store t.store) :
    WorkerOk peer t x where
  running := (hst h.running).1
  peer_eq := h.peer_eq
  current := hs.current x.1 h.current
  named := h.named
  clears := h.clears.stable ongoingFrame hst

theorem Followed.step (h : Followed cfg peer batchLimit w)
    (hs : Steady peer w.node.store w'.node.store) (hsource : w'.source = w.source)
    (hepochs : w'.epochs = w.epochs) (hcursor : w'.cursor peer = w.cursor peer)
    (hlatest : w'.latest = w.latest) (husable : w'.node.store.QueueUsable cfg peer)
    (hpoll : PollOk cfg peer batchLimit w' w'.poll) (hworkers : ∀ x ∈ w'.workers, WorkerOk peer w'.node x) :
    Followed cfg peer batchLimit w' where
  sound := hs.sound h.sound
  usable := husable
  counted := hs.counted h.counted
  versioned := hsource ▸ h.versioned
  epoch_ne := hsource ▸ h.epoch_ne
  epoch_mem := by
    rw [hsource, hepochs]
    exact h.epoch_mem
  cursor_zero := hcursor ▸ h.cursor_zero
  cursor_seen := by
    rw [hcursor, hepochs]
    exact h.cursor_seen
  cursor_le := by
    rw [hcursor, hsource]
    exact h.cursor_le
  covered := by
    rw [hcursor, hsource]
    exact fun he row hrow hu hle => hs.covers row (h.covered he row hrow hu hle)
  announced := by
    rw [hcursor, hlatest]
    exact fun r hr => ⟨(h.announced r hr).1,
      fun he x hx hu hle => hs.covers x ((h.announced r hr).2 he x hx hu hle)⟩
  poll := hpoll
  workers := hworkers

theorem Steady.refl (s : Store) : Steady peer s s := .of_merged id (.refl s) (.refl s)

theorem Steady.trans {s t u : Store} (h : Steady peer s t) (h' : Steady peer t u) : Steady peer s u where
  sound := fun hs => h'.sound (h.sound hs)
  forward := h.forward.trans h'.forward
  covers := fun m hm => h'.covers m (h.covers m hm)
  current := fun item hitem => h'.current item (h.current item hitem)
  counted := fun hs => h'.counted (h.counted hs)

theorem Quietly.steady (h : Quietly s t) (hs : s.Running) :
    Steady peer s.store t.store := by
  obtain ⟨ht, hrows, hqueue⟩ := h.beside hs
  exact .of_merged (fun _ => ht.1) hrows hqueue

theorem Quietly.queueUsable (h : Quietly s t) (hs : s.Running)
    (husable : s.store.QueueUsable cfg peer) : t.store.QueueUsable cfg peer := by
  obtain ⟨ht, hrows, -⟩ := h.beside hs
  exact husable.offered ht.1 hrows (h.offered hs.1.logged)

theorem Followed.node (h : Followed cfg peer batchLimit w) {workers : List (RepairRow × Task Err Node Verdict)}
    (hs : Steady peer w.node.store t.store) (hcursor : t.store.getPeerState peer = w.cursor peer)
    (husable : t.store.QueueUsable cfg peer) (hworkers : ∀ x ∈ workers, WorkerOk peer t x) :
    Followed cfg peer batchLimit { w with node := t, workers := workers } :=
  h.step hs rfl rfl hcursor rfl husable (h.poll.node hs rfl rfl hcursor rfl) hworkers

theorem Followed.quietly (h : Followed cfg peer batchLimit w) (hst : Quietly w.node t)
    (hrec : w.node.recovered = true) : Followed cfg peer batchLimit { w with node := t } := by
  have hrun : w.node.Running := ⟨h.sound, hrec⟩
  have hs : Steady peer w.node.store t.store := hst.steady hrun
  exact h.node hs (getPeerState_of_cursors hst.cursors) (hst.queueUsable hrun h.usable)
    fun x hx => (h.workers x hx).ongoing hst.beside.ongoing hs

theorem Steady.ongoing {st : Store} (hs : Steady peer s.store st) :
    Ongoing s { s with store := st } :=
  fun hrun => ⟨⟨hs.sound hrun.1, hrun.2⟩, hs.forward⟩

theorem Followed.withStore (h : Followed cfg peer batchLimit w) {s : Store}
    (hs : Steady peer w.node.store s) (hcursor : s.getPeerState peer = w.cursor peer)
    (husable : s.QueueUsable cfg peer)
    (hpoll : PollOk cfg peer batchLimit (w.withStore s) p) :
    Followed cfg peer batchLimit { w.withStore s with poll := p } :=
  h.step hs rfl rfl hcursor rfl husable
    (hpoll.node (.refl s) rfl rfl rfl rfl) fun x hx => (h.workers x hx).ongoing hs.ongoing hs

theorem Followed.observe (h : Followed cfg peer batchLimit w) (hnode : w'.node = w.node)
    (hsource : w'.source = w.source) (hepochs : w'.epochs = w.epochs)
    (hworkers : w'.workers = w.workers) (hlatest : w'.latest = w.latest)
    (hpoll : PollOk cfg peer batchLimit w w'.poll) : Followed cfg peer batchLimit w' := by
  have hs : Steady peer w.node.store w'.node.store := hnode ▸ .refl _
  have hcursor : w'.cursor peer = w.cursor peer := by
    unfold World.cursor
    rw [hnode]
  refine h.step hs hsource hepochs hcursor hlatest (hnode ▸ h.usable)
    (hpoll.node hs hsource hepochs hcursor hlatest) ?_
  rw [hworkers, hnode]
  exact h.workers

variable {state : PeerState}

theorem Followed.moveCursor (h : Followed cfg peer batchLimit w)
    (hne : state.epoch ≠ "") (hseen : state.epoch ∈ w.epochs)
    (hle : state.epoch = w.source.epoch → state.version ≤ w.source.store.lastVersion)
    (hcovered : state.epoch = w.source.epoch → ∀ row ∈ w.source.store.files.rows, Usable cfg row →
      row.version ≤ state.version → w.node.store.Covers peer row)
    (hannounced : ∀ r, w.latest = some r → state.epoch = r.epoch → ∀ x ∈ r.held, Usable cfg x →
      x.version ≤ state.version → w.node.store.Covers peer x)
    (hpoll : PollOk cfg peer batchLimit (w.withStore (w.node.store.setPeerState peer state)) p) :
    Followed cfg peer batchLimit
      { w.withStore (w.node.store.setPeerState peer state) with poll := p } := by
  have hs : Steady peer w.node.store (w.node.store.setPeerState peer state) := steady_setPeerState _ _
  have hcursor : (w.node.store.setPeerState peer state).getPeerState peer = state := by
    rw [getPeerState_setPeerState, if_pos rfl]
  refine ⟨hs.sound h.sound, h.usable, hs.counted h.counted, h.versioned,
    h.epoch_ne, h.epoch_mem, ?_, ?_, ?_, ?_, ?_, hpoll.node (.refl _) rfl rfl rfl rfl, ?_⟩
  · unfold World.cursor World.withStore
    rw [hcursor]
    exact fun he => absurd he hne
  · unfold World.cursor World.withStore
    rw [hcursor]
    exact Or.inr hseen
  · unfold World.cursor World.withStore
    rw [hcursor]
    exact hle
  · unfold World.cursor World.withStore
    rw [hcursor]
    exact fun he row hrow hu hv => hs.covers row (hcovered he row hrow hu hv)
  · unfold World.cursor World.withStore
    rw [hcursor]
    exact fun r hr => ⟨(h.announced r hr).1, fun he x hx hu hv => hs.covers x (hannounced r hr he x hx hu hv)⟩
  · exact fun x hx => (h.workers x hx).ongoing hs.ongoing hs

theorem Followed.resetCursor (h : Followed cfg peer batchLimit w) (hr : ReplyOk cfg peer batchLimit w r) :
    Followed cfg peer batchLimit
      { w.withStore (w.node.store.setPeerState peer { version := 0, epoch := r.epoch }) with
        poll := .idle } := by
  refine h.moveCursor hr.epoch_ne hr.epoch_mem (fun _ => h.versioned.counter) ?_ ?_ trivial
  · intro _ row hrow _ hv
    have := h.versioned.positive row hrow
    dsimp only at hv
    omega
  · intro r' hr' _ x hx _ hv
    have := (h.announced r' hr').1 x hx
    dsimp only at hv
    omega

theorem state_zero_of_no_reset {epoch : String} {max : Option Int}
    (hzero : state.epoch = "" → state.version = 0) (hne : epoch ≠ "")
    (h : needsCursorReset state epoch max = false) (hdiff : state.epoch ≠ epoch) :
    state.version = 0 := by
  unfold needsCursorReset at h
  by_contra hv
  rw [if_neg hv] at h
  split at h
  · cases h
  · next hsame =>
    simp only [not_and, not_not] at hsame
    by_cases hempty : state.epoch = ""
    · exact hv (hzero hempty)
    · exact hdiff (hsame hne hempty).symm

theorem Followed.recordEpoch (h : Followed cfg peer batchLimit w)
    (hp : w.poll = .noted r) (hreset : needsCursorReset r.state r.epoch r.max = false) :
    Followed cfg peer batchLimit
      { w.withStore (recordEpoch peer w.node.store r) with poll := .recorded r } := by
  have hpoll := h.poll
  rw [hp] at hpoll
  obtain ⟨hr, hcursor, hlatest⟩ := hpoll
  have hfresh : r.state.epoch ≠ r.epoch → r.state.version = 0 :=
    state_zero_of_no_reset hr.state_zero hr.epoch_ne hreset
  unfold BirakFormal.recordEpoch
  split
  · next hdiff =>
    have hzero := hfresh hdiff.1
    refine h.moveCursor hr.epoch_ne hr.epoch_mem (fun _ => ?_) ?_ ?_ ?_
    · have := h.versioned.counter
      dsimp only
      omega
    · intro _ row hrow _ hv
      have := h.versioned.positive row hrow
      dsimp only at hv
      omega
    · intro r' hr' _ x hx _ hv
      have := (h.announced r' hr').1 x hx
      dsimp only at hv
      omega
    · refine ⟨hr.node (steady_setPeerState _ _) rfl rfl, ?_, hlatest, hfresh⟩
      unfold World.cursor World.withStore
      rw [getPeerState_setPeerState, if_pos rfl]
  · next hsame =>
    have hepoch : r.state.epoch = r.epoch := by
      by_contra hdiff
      exact hsame ⟨hdiff, hr.epoch_ne⟩
    refine h.withStore (.refl _) rfl h.usable ⟨hr.node (.refl _) rfl rfl, ?_, hlatest, hfresh⟩
    refine hcursor.trans ?_
    rw [← hepoch]

theorem Followed.advanceCursor (h : Followed cfg peer batchLimit w) (hp : w.poll = .enqueued r) :
    Followed cfg peer batchLimit
      { w.withStore (advanceCursor peer w.node.store r) with poll := .advanced r.batchMax } := by
  have hpoll := h.poll
  rw [hp] at hpoll
  obtain ⟨⟨hr, hcursor, hlatest, hfresh⟩, hpage, hentries⟩ := hpoll
  unfold BirakFormal.advanceCursor
  split
  · refine h.moveCursor hr.epoch_ne hr.epoch_mem (fun he => hr.below hpage he.symm) ?_ ?_ trivial
    · intro he row hrow hu hv
      rcases hr.passedRows hpage he.symm row hrow hv with hold | hmem
      · refine h.covered ?_ row hrow hu ?_
        · rw [hcursor]
          exact he
        · rw [hcursor]
          exact hold
      · exact hentries row hmem hu
    · intro r' hr' _ x hx hu hv
      rw [hlatest] at hr'
      cases hr'
      rcases hr.passed hpage x hx hv with hold | hmem
      · by_cases he : r.state.epoch = r.epoch
        · exact hr.held he x hx hu hold
        · have := hr.positive x hx
          have := hfresh he
          omega
      · exact hentries x hmem hu
  · exact h.withStore (.refl _) rfl h.usable trivial

variable {epochs : List String}

theorem ReplyOk.source (h : ReplyOk cfg peer batchLimit w r) {source : Incarnation} (hepochs : ∀ e ∈ w.epochs, e ∈ epochs)
    (hbelow : source.epoch = r.epoch →
      w.source.epoch = r.epoch ∧ w.source.store.lastVersion ≤ source.store.lastVersion ∧
      ∀ row ∈ source.store.files.rows, row ∈ w.source.store.files.rows ∨ w.source.store.lastVersion < row.version) :
    ReplyOk cfg peer batchLimit { w with source := source, epochs := epochs } r where
  epoch_ne := h.epoch_ne
  epoch_mem := hepochs _ h.epoch_mem
  state_zero := h.state_zero
  positive := h.positive
  held := h.held
  names := h.names
  passed := h.passed
  below := by
    intro hpage he
    obtain ⟨he', hle, -⟩ := hbelow he
    exact (h.below hpage he').trans hle
  passedRows := by
    intro hpage he row hrow hv
    obtain ⟨he', -, hrows⟩ := hbelow he
    rcases hrows row hrow with hold | hnew
    · exact h.passedRows hpage he' row hold hv
    · have := h.below hpage he'
      omega

theorem Settled.source (h : Settled cfg peer batchLimit w r) {source : Incarnation} (hreply : ReplyOk cfg peer batchLimit { w with source := source, epochs := epochs } r) :
    Settled cfg peer batchLimit { w with source := source, epochs := epochs } r :=
  ⟨hreply, h.cursor, h.latest, h.fresh⟩

theorem PollOk.source (h : PollOk cfg peer batchLimit w p) {source : Incarnation} (hepochs : ∀ e ∈ w.epochs, e ∈ epochs)
    (hbelow : ∀ e ∈ w.epochs, source.epoch = e →
      w.source.epoch = e ∧ w.source.store.lastVersion ≤ source.store.lastVersion ∧
      ∀ row ∈ source.store.files.rows, row ∈ w.source.store.files.rows ∨ w.source.store.lastVersion < row.version) :
    PollOk cfg peer batchLimit { w with source := source, epochs := epochs } p := by
  have hreply : ∀ {r : Reply}, ReplyOk cfg peer batchLimit w r →
      ReplyOk cfg peer batchLimit { w with source := source, epochs := epochs } r :=
    fun hr => hr.source hepochs (hbelow _ hr.epoch_mem)
  cases p with
  | idle => trivial
  | asked state => exact h
  | headed state epoch max => exact ⟨h.1, h.2.1, hepochs _ h.2.2⟩
  | served r => exact ⟨hreply h.1, h.2⟩
  | noted r => exact ⟨hreply h.1, h.2⟩
  | recorded r => exact Settled.source h (hreply h.reply)
  | compared r wanted => exact ⟨h.1.source (hreply h.1.reply), h.2⟩
  | enqueued r => exact ⟨h.1.source (hreply h.1.reply), h.2⟩
  | advanced v => trivial

theorem Followed.write (h : Followed cfg peer batchLimit w) {fold : String → String} {m : FileMeta}
    {isLocal : Bool} {v : Int} {st : Store}
    (hput : w.source.store.commitPut fold m isLocal = .ok (v, st)) :
    Followed cfg peer batchLimit { w with source := { w.source with store := st } } := by
  have hlast := lastVersion_commitPut hput
  have hrows : ∀ row ∈ st.files.rows,
      row ∈ w.source.store.files.rows ∨ w.source.store.lastVersion < row.version := by
    intro row hrow
    rcases mem_rows_commitPut hput hrow with hold | hnew
    · exact Or.inl hold
    · right
      omega
  refine ⟨h.sound, h.usable, h.counted, h.versioned.commitPut hput, h.epoch_ne, h.epoch_mem,
    h.cursor_zero, h.cursor_seen, ?_, ?_, h.announced, ?_, h.workers⟩
  · intro he
    have := h.cursor_le he
    change (w.cursor peer).version ≤ st.lastVersion
    omega
  · intro he row hrow hu hv
    rcases hrows row hrow with hold | hnew
    · exact h.covered he row hold hu hv
    · have := h.cursor_le he
      change row.version ≤ (w.cursor peer).version at hv
      omega
  · refine h.poll.source (fun _ => id) fun e _ he => ⟨he, ?_, hrows⟩
    change w.source.store.lastVersion ≤ st.lastVersion
    omega

theorem Followed.incarnate (h : Followed cfg peer batchLimit w) {source : Incarnation}
    (hversions : source.store.Versioned) (hepoch : source.epoch ∉ w.epochs) (hne : source.epoch ≠ "") :
    Followed cfg peer batchLimit { w with source := source, epochs := source.epoch :: w.epochs } := by
  have hother : (w.cursor peer).epoch ≠ source.epoch := by
    intro he
    rcases h.cursor_seen with hempty | hmem
    · exact hne (he.symm.trans hempty)
    · exact hepoch (he ▸ hmem)
  refine ⟨h.sound, h.usable, h.counted, hversions, hne, List.mem_cons_self, h.cursor_zero,
    h.cursor_seen.imp id (List.mem_cons_of_mem _), fun he => absurd he hother,
    fun he => absurd he hother, h.announced, ?_, h.workers⟩
  exact h.poll.source (fun e he => List.mem_cons_of_mem _ he)
    fun e he heq => absurd (heq ▸ he) hepoch

theorem Followed.serve (h : Followed cfg peer batchLimit w) {epoch : String}
    {max : Option Int} (hp : w.poll = .headed state epoch max) (he : w.source.epoch = epoch)
    {page : Option (List FileMeta)}
    (hpage : (∃ k, page = some (w.source.store.getChanges state.version k)) ∨
      pageAccepted batchLimit state.version page = false) :
    Followed cfg peer batchLimit { w with poll := .served ⟨state, epoch, max,
      w.source.store.files.rows.filter fun r => max.any (r.version ≤ ·), page⟩ } := by
  have hpoll := h.poll
  rw [hp] at hpoll
  obtain ⟨rfl, hne, hmem⟩ := hpoll
  subst he
  -- Only an accepted page matters, and that is a leading part of the peer's rows.
  have hhonest : pageAccepted batchLimit (w.cursor peer).version page = true →
      ∃ k, page.getD [] = w.source.store.getChanges (w.cursor peer).version k := by
    intro hok
    rcases hpage with ⟨k, rfl⟩ | hbad
    · exact ⟨k, rfl⟩
    · rw [hbad] at hok
      cases hok
  have hpassed : pageAccepted batchLimit (w.cursor peer).version page = true →
      ∀ row ∈ w.source.store.files.rows, row.version ≤ (collapseByName (page.getD [])).2 →
        row.version ≤ (w.cursor peer).version ∨ row ∈ page.getD [] := by
    intro hok row hrow hv
    obtain ⟨k, hk⟩ := hhonest hok
    rw [hk] at hv ⊢
    by_cases hlt : (w.cursor peer).version < row.version
    · exact Or.inr (mem_getChanges_of_le h.versioned hrow hlt hv)
    · exact Or.inl (not_lt.mp hlt)
  refine h.observe rfl rfl rfl rfl rfl ⟨⟨hne, hmem, h.cursor_zero, ?_, ?_, ?_, ?_, ?_, ?_⟩, rfl⟩
  · exact fun x hx => h.versioned.positive x (List.mem_filter.mp hx).1
  · exact fun heq x hx hu hv => h.covered heq x (List.mem_filter.mp hx).1 hu hv
  · intro hok
    obtain ⟨k, hk⟩ := hhonest hok
    dsimp only
    rw [hk]
    exact getChanges_names
  · exact fun hok x hx => hpassed hok x (List.mem_filter.mp hx).1
  · intro hok _
    obtain ⟨k, hk⟩ := hhonest hok
    unfold Reply.batchMax
    dsimp only
    rw [hk]
    exact collapseByName_le_lastVersion h.versioned
  · exact fun hok _ => hpassed hok

theorem Followed.note (h : Followed cfg peer batchLimit w) {stat : PeerStat} (hp : w.poll = .served r) :
    Followed cfg peer batchLimit { w with poll := .noted r, stat := stat, latest := some r } := by
  have hpoll := h.poll
  rw [hp] at hpoll
  obtain ⟨hr, hcursor⟩ := hpoll
  refine ⟨h.sound, h.usable, h.counted, h.versioned, h.epoch_ne, h.epoch_mem, h.cursor_zero,
    h.cursor_seen, h.cursor_le, h.covered, ?_, ⟨hr.node (.refl _) rfl rfl, hcursor, rfl⟩, h.workers⟩
  intro r' hr'
  cases hr'
  refine ⟨hr.positive, fun he x hx hu hv => ?_⟩
  change (w.cursor peer).epoch = r.epoch at he
  change x.version ≤ (w.cursor peer).version at hv
  rw [hcursor] at he hv
  exact hr.held he x hx hu hv

theorem Followed.compare (h : Followed cfg peer batchLimit w)
    (hp : w.poll = .recorded r) (hpage : pageAccepted batchLimit r.state.version r.page = true)
    (fenced : String → Bool) :
    Followed cfg peer batchLimit { w with poll := .compared r (newerThanLocal w.node.store.getFile
      fenced (usableChanges cfg (collapseByName (r.page.getD [])).1)) } := by
  have hsettled := h.poll
  rw [hp] at hsettled
  have hsettled : Settled cfg peer batchLimit w r := hsettled
  refine h.observe rfl rfl rfl rfl rfl ⟨hsettled, hpage, fun e he => ?_, fun e he hu => ?_⟩
  · exact (mem_usableChanges.mp (List.mem_filter.mp he).1).2
  · refine mem_newerThanLocal (mem_usableChanges.mpr ⟨?_, hu⟩)
    rw [collapseByName_fst (hsettled.reply.names hpage)]
    exact he

theorem Followed.enqueue (h : Followed cfg peer batchLimit w) {wanted : List FileMeta}
    (hp : w.poll = .compared r wanted) (now : Int) :
    Followed cfg peer batchLimit
      { w.withStore (w.node.store.enqueueChanges cfg.repairLimit now peer "polled" wanted).2 with
        poll := if (w.node.store.enqueueChanges cfg.repairLimit now peer "polled" wanted).1.2.isNone
          then .enqueued r else .idle } := by
  have hpoll := h.poll
  rw [hp] at hpoll
  obtain ⟨hsettled, hpage, hwanted, hentries⟩ := hpoll
  have hs : Steady peer w.node.store
      (w.node.store.enqueueChanges cfg.repairLimit now peer "polled" wanted).2 :=
    steady_enqueueChanges _ _ _ _ _
  refine h.withStore hs rfl (h.usable.enqueueChanges fun _ => hwanted) ?_
  split
  · next hnone =>
    refine ⟨hsettled.node hs rfl rfl rfl rfl, hpage, fun e he hu => ?_⟩
    rcases hentries e he hu with hmem | hle
    · exact Or.inr (Store.queuedAtLeast_enqueueChanges (Option.isNone_iff_eq_none.mp hnone) hmem)
    · exact hs.covers e (Or.inl hle)
  · trivial

variable {item : RepairRow}

theorem Followed.take (h : Followed cfg peer batchLimit w) {a : Attempt}
    (hrec : w.node.recovered = true) (hitem : item ∈ w.node.store.repairQueue.rows)
    (hpeer : item.peer = peer) (hreply : ∀ m, item.metadata = some m → UsableReply cfg m a.reply) :
    Followed cfg peer batchLimit { w with workers := (item, repairAttempt cfg a item) :: w.workers } := by
  have hfind := Table.mem_rows_iff.mp hitem
  have husable := fun m hm => h.usable item.key item m hfind hm hpeer
  refine h.node (.refl _) rfl h.usable fun x hx => ?_
  rcases List.mem_cons.mp hx with rfl | hx
  · refine ⟨⟨h.sound, hrec⟩, hpeer, ⟨h.counted _ item hfind, fun row hrow _ => ?_⟩,
      fun m hm => (husable m hm).1, repairAttempt_clears ⟨h.sound, hrec⟩ fun m hm => ?_⟩
    · rw [hfind] at hrow
      rw [Option.some.inj hrow]
    · exact ⟨(husable m hm).1, hreply m hm, (husable m hm).2⟩
  · exact h.workers x hx

theorem Followed.work (h : Followed cfg peer batchLimit w)
    {before after : List (RepairRow × Task Err Node Verdict)} {β : Type}
    {p : Sys β} {k : Except (Failure Err) β → Task Err Node Verdict}
    (hw : w.workers = before ++ (item, .next p k) :: after) {fs : List Fault}
    {r : Except (Failure Err) β} (hrun : p.run fs w.node = (.returned r, t)) :
    Followed cfg peer batchLimit { w with node := t, workers := before ++ (item, k r) :: after } := by
  have hworkers := h.workers
  rw [hw] at hworkers
  have hself := hworkers (item, .next p k) (List.mem_append_right _ List.mem_cons_self)
  obtain ⟨hquiet, hrest⟩ := hself.clears.advance ongoingFrame hrun
  have hs : Steady peer w.node.store t.store := hquiet.steady hself.running
  refine h.node hs (getPeerState_of_cursors hquiet.cursors)
    (hquiet.queueUsable hself.running h.usable) fun x hx => ?_
  rcases List.mem_append.mp hx with hx | hx
  · exact (hworkers x (List.mem_append_left _ hx)).ongoing hquiet.beside.ongoing hs
  · rcases List.mem_cons.mp hx with rfl | hx
    · exact ⟨(hquiet.beside hself.running).1, hself.peer_eq, hs.current _ hself.current, hself.named, hrest⟩
    · exact (hworkers x (List.mem_append_right _ (List.mem_cons_of_mem _ hx))).ongoing
        hquiet.beside.ongoing hs

variable {verdict : Verdict}

theorem endRepair_stops (h : (endRepair item verdict).Stops s t) :
    t = s ∨ (verdict = .resolve ∧ t = { s with store := s.store.resolveRepairItem item }) ∨
      ∃ next cause, t = { s with store := s.store.deferRepairItem item next cause } := by
  have halter : ∀ {f : Node → Node}, (alter f : Sys Unit).Stops s t → t = s ∨ t = f s := by
    intro f hf
    have hsafe : (alter f : Sys Unit).Safe (fun u => u = s ∨ u = f s)
        (fun _ u => u = s ∨ u = f s) s := safe_alter (Or.inl rfl) (Or.inr rfl)
    exact hsafe.stops (fun _ _ => id) hf
  cases verdict with
  | resolve =>
    rcases halter h with rfl | rfl
    · exact Or.inl rfl
    · exact Or.inr (Or.inl ⟨rfl, rfl⟩)
  | defer cause =>
    rcases halter h with rfl | rfl
    · exact Or.inl rfl
    · exact Or.inr (Or.inr ⟨_, cause, rfl⟩)
  | cancelled => exact Or.inl ((readFrame.raise (Err.failed "context canceled")).stops h)

theorem WorkerOk.ends (h : WorkerOk peer s (item, .done verdict)) (husable : s.store.QueueUsable cfg peer)
    (hstops : (endRepair item verdict).Stops s t) :
    ∃ st, t = { s with store := st } ∧ Steady peer s.store st ∧ st.cursors = s.store.cursors ∧
      st.QueueUsable cfg peer := by
  rcases endRepair_stops hstops with rfl | ⟨rfl, rfl⟩ | ⟨next, cause, rfl⟩
  · exact ⟨t.store, rfl, .refl _, rfl, husable⟩
  · have hdone := h.clears.done ongoingFrame rfl
    refine ⟨_, rfl, steady_resolveRepairItem (fun _ => h.current) fun _ m hm => ?_,
      (resolveRepairItem_rows item).2.2.2.1, husable.resolveRepairItem item⟩
    rw [← h.named m hm]
    exact (hdone m hm).2
  · exact ⟨_, rfl, steady_deferRepairItem item next cause,
      (deferRepairItem_rows item next cause).2.2.2, husable.deferRepairItem item next cause⟩

theorem Followed.finish (h : Followed cfg peer batchLimit w)
    {before after : List (RepairRow × Task Err Node Verdict)}
    (hw : w.workers = before ++ (item, .done verdict) :: after)
    (hstops : (endRepair item verdict).Stops w.node t) :
    Followed cfg peer batchLimit { w with node := t, workers := before ++ after } := by
  have hworkers := h.workers
  rw [hw] at hworkers
  have hself := hworkers (item, .done verdict) (List.mem_append_right _ List.mem_cons_self)
  obtain ⟨st, rfl, hs, hcursors, husable⟩ := hself.ends h.usable hstops
  refine h.node hs (getPeerState_of_cursors hcursors) husable fun x hx => ?_
  have hx : WorkerOk peer w.node x := by
    rcases List.mem_append.mp hx with hx | hx
    · exact hworkers x (List.mem_append_left _ hx)
    · exact hworkers x (List.mem_append_right _ (List.mem_cons_of_mem _ hx))
  exact hx.ongoing hs.ongoing hs

theorem Followed.restarted (h : Followed cfg peer batchLimit w) {u t : Node}
    (hcut : u = w.node ∨ ∃ (item : RepairRow) (β : Type) (p : Sys β)
      (k : Except (Failure Err) β → Task Err Node Verdict), (item, .next p k) ∈ w.workers ∧ p.Stops w.node u)
    (hstops : (validateStorageLocked cfg).Stops u.restarted t) :
    Steady peer w.node.store t.store ∧ t.store.cursors = w.node.store.cursors ∧ t.store.QueueUsable cfg peer := by
  obtain ⟨hu, hcursors, husable⟩ : Steady peer w.node.store u.store ∧
      u.store.cursors = w.node.store.cursors ∧ u.store.QueueUsable cfg peer := by
    rcases hcut with rfl | ⟨item, β, p, k, hmem, hp⟩
    · exact ⟨.refl _, rfl, h.usable⟩
    · have hworker := h.workers _ hmem
      have hquiet := hworker.clears.stops ongoingFrame hp
      exact ⟨hquiet.steady hworker.running, hquiet.cursors, hquiet.queueUsable hworker.running h.usable⟩
  have honward : Onward u.restarted t := (onwardUpkeep cfg).validateStorageLocked.stops hstops
  have hmerged : QueueMerged u.restarted t := (queueMerged_upkeep cfg).validateStorageLocked.stops hstops
  have hsound := hu.sound h.sound
  obtain ⟨ht, hrows⟩ := honward hsound
  exact ⟨hu.trans (.of_merged (fun _ => ht) hrows hmerged.queue), hmerged.cursors.trans hcursors,
    husable.offered ht hrows (hmerged.offered hsound.logged)⟩

theorem Followed.restart (h : Followed cfg peer batchLimit w) {u t : Node} {stat : PeerStat} {ready : Readiness}
    (hcut : u = w.node ∨ ∃ (item : RepairRow) (β : Type) (p : Sys β)
      (k : Except (Failure Err) β → Task Err Node Verdict), (item, .next p k) ∈ w.workers ∧ p.Stops w.node u)
    (hstops : (validateStorageLocked cfg).Stops u.restarted t) :
    Followed cfg peer batchLimit
      { w with node := t, poll := .idle, workers := [], stat := stat, ready := ready } := by
  obtain ⟨hs, hcursors, husable⟩ := h.restarted hcut hstops
  exact h.step hs rfl rfl (getPeerState_of_cursors hcursors) rfl husable trivial
    fun x hx => absurd hx List.not_mem_nil

theorem Followed.external (h : Followed cfg peer batchLimit w) (hsame : SameIndex w.node t) :
    Followed cfg peer batchLimit { w with node := t } := by
  have hs : Steady peer w.node.store t.store := by
    rw [hsame.1]
    exact .refl _
  refine h.node hs (getPeerState_of_cursors (congrArg Store.cursors hsame.1)) ?_ fun x hx =>
    (h.workers x hx).ongoing (fun hrun => ?_) hs
  · rw [hsame.1]
    exact h.usable
  · exact ⟨⟨hs.sound hrun.1, hsame.2.trans hrun.2⟩, hs.forward⟩

theorem Followed.worldStep (h : Followed cfg peer batchLimit w)
    (hstep : WorldStep cfg peer batchLimit w w') : Followed cfg peer batchLimit w' := by
  have hidle : PollOk cfg peer batchLimit w .idle := trivial
  cases hstep with
  | write hput => exact h.write hput
  | incarnate source hversions hepoch hne => exact h.incarnate hversions hepoch hne
  | ask hp => exact h.observe rfl rfl rfl rfl rfl rfl
  | head hp =>
    have hpoll := h.poll
    rw [hp] at hpoll
    exact h.observe rfl rfl rfl rfl rfl ⟨hpoll, h.epoch_ne, h.epoch_mem⟩
  | serve hp he page hpage => exact h.serve hp he hpage
  | note hp => exact h.note hp
  | reset hp hreset =>
    have hpoll := h.poll
    rw [hp] at hpoll
    exact h.resetCursor hpoll.1
  | record hp hreset => exact h.recordEpoch hp hreset
  | compare hp hpage hne fenced => exact h.compare hp hpage fenced
  | enqueue hp now => exact h.enqueue hp now
  | advance hp => exact h.advanceCursor hp
  | restat hp => exact h.observe rfl rfl rfl rfl rfl hidle
  | abandon => exact h.observe rfl rfl rfl rfl rfl hidle
  | succeed => exact h.observe rfl rfl rfl rfl rfl h.poll
  | fail => exact h.observe rfl rfl rfl rfl rfl h.poll
  | reconcilePage page rows fenced now =>
    refine h.withStore (p := w.poll) (steady_enqueueChanges _ _ _ _ _) rfl
      (h.usable.enqueueChanges fun _ m hm => ?_)
      (h.poll.node (steady_enqueueChanges _ _ _ _ _) rfl rfl rfl rfl)
    exact (mem_usableChanges.mp (List.mem_filter.mp hm).1).2
  | reconciled => exact h.observe rfl rfl rfl rfl rfl h.poll
  | take item a hrec hitem hpeer hreply => exact h.take hrec hitem hpeer hreply
  | work hw hrun => exact h.work hw hrun
  | finish hw hstops => exact h.finish hw hstops
  | underLock sec hrec hsec hstops => exact h.quietly (sec.quietly hrec hsec hstops) hrec
  | external hsame => exact h.external hsame
  | otherPeer hother =>
    exact h.withStore (p := w.poll) hother.steady hother.cursor_eq (hother.queueUsable h.usable)
      (h.poll.node hother.steady rfl rfl hother.cursor_eq rfl)
  | restart hcut hstops => exact h.restart hcut hstops
  | choose hr hi hsource => exact h.observe rfl rfl rfl rfl rfl h.poll
  | count hr hempty => exact h.observe rfl rfl rfl rfl rfl h.poll
  | goReady hr => exact h.observe rfl rfl rfl rfl rfl h.poll
  | giveUp => exact h.observe rfl rfl rfl rfl rfl h.poll

theorem Followed.steady (h : Followed cfg peer batchLimit w)
    (hstep : WorldStep cfg peer batchLimit w w') : Steady peer w.node.store w'.node.store := by
  cases hstep with
  | reset hp hreset => exact steady_setPeerState _ _
  | record hp hreset =>
    change Steady peer w.node.store (BirakFormal.recordEpoch peer w.node.store _)
    unfold BirakFormal.recordEpoch
    split
    · exact steady_setPeerState _ _
    · exact .refl _
  | enqueue hp now => exact steady_enqueueChanges _ _ _ _ _
  | advance hp =>
    change Steady peer w.node.store (BirakFormal.advanceCursor peer w.node.store _)
    unfold BirakFormal.advanceCursor
    split
    · exact steady_setPeerState _ _
    · exact .refl _
  | reconcilePage page rows fenced now => exact steady_enqueueChanges _ _ _ _ _
  | work hw hrun =>
    have hself := h.workers _ (hw ▸ List.mem_append_right _ List.mem_cons_self)
    exact (hself.clears.advance ongoingFrame hrun).1.steady hself.running
  | finish hw hstops =>
    have hself := h.workers _ (hw ▸ List.mem_append_right _ List.mem_cons_self)
    obtain ⟨st, rfl, hs, -⟩ := hself.ends h.usable hstops
    exact hs
  | underLock sec hrec hsec hstops => exact (sec.quietly hrec hsec hstops).steady ⟨h.sound, hrec⟩
  | external hsame =>
    rw [hsame.1]
    exact .refl _
  | otherPeer hother => exact hother.steady
  | restart hcut hstops => exact (h.restarted hcut hstops).1
  | _ => exact .refl _

end

structure World.Begins (cfg : Config) (peer : String) (w : World) : Prop where
  sound : w.node.store.Sound
  usable : w.node.store.QueueUsable cfg peer
  counted : w.node.store.Counted
  versioned : w.source.store.Versioned
  epoch_ne : w.source.epoch ≠ ""
  epoch_mem : w.source.epoch ∈ w.epochs
  cursor : w.cursor peer = {}
  poll : w.poll = .idle
  workers : w.workers = []
  latest : w.latest = none

variable {peer : String} {cfg : Config}

theorem World.Begins.followed {w : World} (h : w.Begins cfg peer)
    (batchLimit : Nat) : Followed cfg peer batchLimit w where
  sound := h.sound
  usable := h.usable
  counted := h.counted
  versioned := h.versioned
  epoch_ne := h.epoch_ne
  epoch_mem := h.epoch_mem
  cursor_zero := by
    rw [h.cursor]
    exact fun _ => rfl
  cursor_seen := by
    rw [h.cursor]
    exact Or.inl rfl
  cursor_le := by
    rw [h.cursor]
    exact fun _ => h.versioned.counter
  covered := by
    rw [h.cursor]
    exact fun he => absurd he.symm h.epoch_ne
  announced := by
    rw [h.latest]
    exact fun _ hr => nomatch hr
  poll := by
    rw [h.poll]
    trivial
  workers := by
    rw [h.workers]
    exact fun _ hx => absurd hx List.not_mem_nil

theorem World.Begins.reaches {batchLimit : Nat} {w₀ w : World}
    (h₀ : w₀.Begins cfg peer) (h : ReflTransGen (WorldStep cfg peer batchLimit) w₀ w) :
    Followed cfg peer batchLimit w := by
  induction h with
  | refl => exact h₀.followed batchLimit
  | tail _ hstep ih => exact ih.worldStep hstep

/-- Every row of the peer that the stored cursor has passed, in the incarnation the cursor
belongs to, is held here or queued with a state at least as great. -/
theorem no_update_lost (cfg : Config) (peer : String) (batchLimit : Nat) {w₀ w : World}
    (h₀ : w₀.Begins cfg peer) (h : ReflTransGen (WorldStep cfg peer batchLimit) w₀ w)
    (hepoch : (w.cursor peer).epoch = w.source.epoch) {row : FileMeta}
    (hrow : row ∈ w.source.store.files.rows)
    (hvalid : validateChange cfg.digest cfg.patterns row = .ok ())
    (hpassed : row.version ≤ (w.cursor peer).version) :
    StateLe (some row) (w.node.store.getFile row.name) ∨ w.node.store.QueuedAtLeast (peer, row.name) row :=
  (h₀.reaches h).covered hepoch row hrow hvalid hpassed

def peerWithA : Incarnation where
  epoch := "first"
  store := { files := Table.empty.put { writtenA with version := 1 }, lastVersion := 1 }

def beforePoll : World where
  node := { recovered := true }
  source := peerWithA
  epochs := ["first"]

theorem beforePoll_begins : beforePoll.Begins plainConfig "p" where
  sound := Store.sound_empty
  usable := fun _ _ _ h => nomatch h
  counted := fun _ _ h => nomatch h
  versioned := Store.versioned_single rfl
  epoch_ne := by decide
  epoch_mem := List.mem_singleton_self _
  cursor := rfl
  poll := rfl
  workers := rfl
  latest := rfl

theorem enqueue_advance {batchLimit : Nat} {w : World} {r : Reply}
    {wanted : List FileMeta} (hp : w.poll = .compared r wanted) (now : Int)
    (hfits : (w.node.store.enqueueChanges cfg.repairLimit now peer "polled" wanted).1.2.isNone = true) :
    ReflTransGen (WorldStep cfg peer batchLimit) w
      { w.withStore (advanceCursor peer
          (w.node.store.enqueueChanges cfg.repairLimit now peer "polled" wanted).2 r) with
        poll := .advanced r.batchMax } :=
  (ReflTransGen.single (.enqueue hp now)).tail (.advance (if_pos hfits))

/-- The page is recorded, then the cursor moves past it. -/
theorem no_update_lost_one_poll : ∃ w : World,
    ReflTransGen (WorldStep plainConfig "p" 10) beforePoll w ∧ (w.cursor "p").version = 1 ∧
      (StateLe (some { writtenA with version := 1 }) (w.node.store.getFile "a") ∨
        w.node.store.QueuedAtLeast ("p", "a") { writtenA with version := 1 }) := by
  have hrun := ((((((ReflTransGen.refl (r := WorldStep plainConfig "p" 10) (a := beforePoll)).tail
    (.ask rfl)).tail (.head rfl)).tail (.serve rfl rfl _ (Or.inl ⟨10, rfl⟩))).tail (.note rfl)).tail
    (.record rfl (by decide +kernel))).tail
    (.compare rfl (by decide +kernel) (by decide +kernel) fun _ => false)
  have hrun := hrun.trans (enqueue_advance rfl 0 (by decide +kernel))
  exact ⟨_, hrun, by decide +kernel, no_update_lost plainConfig "p" 10 beforePoll_begins hrun (by decide +kernel)
      (by decide +kernel) (by decide +kernel) (by decide +kernel)⟩

end BirakFormal
