import BirakFormal.Gateway.Protection
import BirakFormal.Gateway.Signature

/-!
# The table of write locks

No two locks of the table cover a common path, and a new one is refused if it would. How long a lock lives
is read from a header and multiplied in 64 bits. A LOCK request refreshes the locks that it names before it
looks whether they are its own.
-/

namespace BirakFormal

open FileTrees

def WriteLock.Meets (a b : WriteLock) : Prop := ∃ path, a.covers path = true ∧ b.covers path = true

def WriteLock.asked (now : Nat) (path : String) (depth : Depth) (timeout : Int) (token : String) : WriteLock :=
  { token, path, depth, expires := now + timeout }

theorem covers_self (lk : WriteLock) : lk.covers lk.path = true := covers_iff.mpr (.inl rfl)

theorem beneath_comparable {x a b : String} (ha : Beneath x a) (hb : Beneath x b) : a = b ∨ Beneath b a ∨ Beneath a b := by
  rcases List.prefix_or_prefix_of_prefix (split_prefix_of_beneath ha) (split_prefix_of_beneath hb) with h | h
  · rcases split_prefix_iff.mp h with h | h
    · exact .inl h
    · exact .inr (.inl h)
  · rcases split_prefix_iff.mp h with h | h
    · exact .inl h.symm
    · exact .inr (.inr h)

/-- The two tests of `create`: a lock above the path, or one below it. -/
theorem meets_asked_iff {lk : WriteLock} {now : Nat} {path : String} {depth : Depth} {timeout : Int} {token : String} :
    lk.Meets (.asked now path depth timeout token) ↔
      (lk.covers path || (depth = .infinity && isDescendant lk.path path)) = true := by
  rw [Bool.or_eq_true, Bool.and_eq_true, decide_eq_true_iff]
  constructor
  · rintro ⟨x, hlk, hnew⟩
    have hroot (hdepth : depth = .infinity) (hpath : path = "") :
        lk.covers path = true ∨ depth = .infinity ∧ isDescendant lk.path path = true := by
      by_cases hlkroot : lk.path = path
      · exact .inl (covers_iff.mpr (.inl hlkroot))
      · refine .inr ⟨hdepth, ?_⟩
        rw [isDescendant, if_pos hpath]
        exact decide_eq_true (hpath ▸ hlkroot)
    rcases covers_iff.mp hnew with rfl | ⟨hdepth, hpath | hbelow⟩
    · exact .inl hlk
    · exact hroot hdepth hpath
    · rcases covers_iff.mp hlk with rfl | ⟨hlkdepth, hlkroot | hlkbelow⟩
      · exact .inr ⟨hdepth, isDescendant_of_beneath hbelow⟩
      · exact .inl (covers_iff.mpr (.inr ⟨hlkdepth, .inl hlkroot⟩))
      · rcases beneath_comparable hlkbelow hbelow with heq | hup | hdown
        · exact .inl (covers_iff.mpr (.inl heq))
        · exact .inl (covers_iff.mpr (.inr ⟨hlkdepth, .inr hup⟩))
        · exact .inr ⟨hdepth, isDescendant_of_beneath hdown⟩
  · rintro (hcovers | ⟨hdepth, hbelow⟩)
    · exact ⟨path, hcovers, covers_self (.asked now path depth timeout token)⟩
    · refine ⟨lk.path, covers_self lk, covers_iff.mpr (.inr ⟨hdepth, ?_⟩)⟩
      unfold isDescendant at hbelow
      split at hbelow
      · next hpath => exact .inl hpath
      · exact .inr (beneath_iff.mpr hbelow)

structure LockTable.Sound (m : LockTable) : Prop where
  tokens : (m.map WriteLock.token).Nodup
  apart : m.Pairwise fun a b => ¬ a.Meets b
  bounded : m.length ≤ maxLocks

namespace LockTable

variable {m : LockTable}

theorem Sound.filter (h : m.Sound) (p : WriteLock → Bool) : LockTable.Sound (m.filter p) :=
  ⟨h.tokens.sublist (List.filter_sublist.map _), h.apart.sublist List.filter_sublist,
    (List.length_filter_le p m).trans h.bounded⟩

theorem Sound.reap (h : m.Sound) (now : Nat) : (m.reap now).Sound := h.filter _

theorem create_eq_none_iff {now : Nat} {path : String} {depth : Depth} {timeout : Int} {token : String} :
    (m.create now path depth timeout token).1 = none ↔
      maxLocks ≤ (m.reap now).length ∨ ∃ lk ∈ m, lk.live now = true ∧ lk.Meets (.asked now path depth timeout token) := by
  have hany : ((m.reap now).any fun lk => lk.covers path || (depth = .infinity && isDescendant lk.path path)) = true ↔
      ∃ lk ∈ m, lk.live now = true ∧ lk.Meets (.asked now path depth timeout token) := by
    rw [List.any_eq_true]
    simp only [LockTable.reap, List.mem_filter, meets_asked_iff, and_assoc]
  rw [← hany]
  unfold create
  dsimp only
  split
  · next hfull => exact ⟨fun _ => .inl hfull, fun _ => rfl⟩
  · next hroom =>
    split
    · next hmeets => exact ⟨fun _ => .inr hmeets, fun _ => rfl⟩
    · next hfree => exact ⟨nofun, fun h => (h.elim hroom hfree).elim⟩

theorem Sound.create (h : m.Sound) (now : Nat) (path : String) (depth : Depth) (timeout : Int) (token : String) :
    (m.create now path depth timeout token).2.Sound := by
  have hnone := @create_eq_none_iff m now path depth timeout token
  revert hnone
  unfold LockTable.create
  dsimp only
  split
  · exact fun _ => h.reap now
  · next hroom =>
    split
    · exact fun _ => h.reap now
    · intro hnone
      have hfree : ∀ lk ∈ m.reap now, ¬ lk.Meets (.asked now path depth timeout token) := by
        intro lk hlk hmeets
        obtain ⟨hmem, hlive⟩ := List.mem_filter.mp hlk
        exact absurd (hnone.mpr (.inr ⟨lk, hmem, hlive, hmeets⟩)) nofun
      have hrest := (h.reap now).filter (·.token ≠ token)
      refine ⟨?_, ?_, ?_⟩
      · rw [List.map_append, List.nodup_append]
        refine ⟨hrest.tokens, List.nodup_singleton _, ?_⟩
        intro t ht t' ht' heq
        obtain ⟨lk, hlk, rfl⟩ := List.mem_map.mp ht
        obtain rfl := List.mem_singleton.mp ht'
        exact absurd heq (of_decide_eq_true (List.mem_filter.mp hlk).2)
      · rw [List.pairwise_append]
        refine ⟨hrest.apart, List.pairwise_singleton _ _, ?_⟩
        intro lk hlk new hnew
        rw [List.mem_singleton.mp hnew]
        exact hfree lk (List.mem_filter.mp hlk).1
      · have hle := List.length_filter_le (fun lk : WriteLock => lk.token ≠ token) (m.reap now)
        rw [List.length_append, List.length_singleton]
        omega

theorem refresh_eq (h : (m.map WriteLock.token).Nodup) {now : Nat} {token : String} {timeout : Int} {lk : WriteLock}
    (hfind : (m.reap now).find? (·.token = token) = some lk) :
    (m.refresh now token timeout).2 =
      (m.reap now).map fun x => if x = lk then { lk with expires := now + timeout } else x := by
  have hmem := List.mem_of_find?_eq_some hfind
  have htoken : lk.token = token := by simpa using List.find?_some hfind
  unfold refresh
  dsimp only
  rw [hfind]
  dsimp only
  apply List.map_congr_left
  intro x hx
  have hiff : x.token = token ↔ x = lk := by
    constructor
    · intro hx'
      exact List.inj_on_of_nodup_map (h.sublist (List.filter_sublist.map _)) hx hmem (hx'.trans htoken.symm)
    · rintro rfl
      exact htoken
  simp only [hiff]

theorem Sound.refresh (h : m.Sound) (now : Nat) (token : String) (timeout : Int) :
    (m.refresh now token timeout).2.Sound := by
  cases hfind : (m.reap now).find? (·.token = token) with
  | none =>
    unfold LockTable.refresh
    dsimp only
    rw [hfind]
    exact h.reap now
  | some lk =>
    rw [refresh_eq h.tokens hfind]
    have hsame : ∀ x : WriteLock, (if x = lk then { lk with expires := now + timeout } else x).token = x.token ∧
        ∀ path, (if x = lk then { lk with expires := now + timeout } else x).covers path = x.covers path := by
      intro x
      split
      · next hx =>
        subst hx
        exact ⟨rfl, fun _ => rfl⟩
      · exact ⟨rfl, fun _ => rfl⟩
    have hreap := h.reap now
    refine ⟨?_, ?_, ?_⟩
    · have htokens : (m.reap now).map (WriteLock.token ∘ fun x => if x = lk then { lk with expires := now + timeout } else x) =
          (m.reap now).map WriteLock.token := List.map_congr_left fun x _ => (hsame x).1
      rw [List.map_map, htokens]
      exact hreap.tokens
    · rw [List.pairwise_map]
      refine hreap.apart.imp ?_
      rintro a b hab ⟨path, ha, hb⟩
      rw [(hsame a).2] at ha
      rw [(hsame b).2] at hb
      exact hab ⟨path, ha, hb⟩
    · rw [List.length_map]
      exact hreap.bounded

theorem Sound.unlock (h : m.Sound) (token : String) : (m.unlock token).2.Sound := by
  unfold LockTable.unlock
  split
  · exact h.filter _
  · exact h

end LockTable

/-- What happens to the table: locks are created, refreshed and released, the expired ones are dropped, and
time passes. -/
inductive LockStep : LockTable × Nat → LockTable × Nat → Prop
  | create (m : LockTable) (now : Nat) (path : String) (depth : Depth) (timeout : Int) (token : String) :
      LockStep (m, now) ((m.create now path depth timeout token).2, now)
  | refresh (m : LockTable) (now : Nat) (token : String) (timeout : Int) :
      LockStep (m, now) ((m.refresh now token timeout).2, now)
  | unlock (m : LockTable) (now : Nat) (token : String) : LockStep (m, now) ((m.unlock token).2, now)
  | reap (m : LockTable) (now : Nat) : LockStep (m, now) (m.reap now, now)
  | elapse (m : LockTable) (now time : Nat) : LockStep (m, now) (m, now + time)

theorem LockStep.sound {s s' : LockTable × Nat} (h : LockStep s s') (hs : s.1.Sound) : s'.1.Sound := by
  cases h with
  | create m now path depth timeout token => exact hs.create now path depth timeout token
  | refresh m now token timeout => exact hs.refresh now token timeout
  | unlock m now token => exact hs.unlock token
  | reap m now => exact hs.reap now
  | elapse m now time => exact hs

/-- In every table that is reached from the empty one no two locks cover a common path, there are not more
than the table may hold, and a lock is refused exactly if the table is full of locks that have not expired
or one of them covers a path that the new one would cover. -/
theorem lock_table_disjoint (start : Nat) (m : LockTable) (now : Nat)
    (h : Relation.ReflTransGen LockStep ([], start) (m, now)) :
    (m.Pairwise fun a b => ¬ ∃ path, a.covers path = true ∧ b.covers path = true) ∧ m.length ≤ maxLocks ∧
      ∀ path depth timeout token, (m.create now path depth timeout token).1 = none ↔
        maxLocks ≤ (m.reap now).length ∨ ∃ lk ∈ m, lk.live now = true ∧
          ∃ x, lk.covers x = true ∧ (WriteLock.asked now path depth timeout token).covers x = true := by
  have hsound : m.Sound := by
    have hinv : ∀ s, Relation.ReflTransGen LockStep ([], start) s → s.1.Sound := by
      intro s hs
      induction hs with
      | refl => exact ⟨List.nodup_nil, .nil, Nat.zero_le _⟩
      | tail _ hstep ih => exact hstep.sound ih
    exact hinv (m, now) h
  exact ⟨hsound.apart, hsound.bounded, fun path depth timeout token => LockTable.create_eq_none_iff⟩

theorem lock_table_disjoint_nested : ((LockTable.create [⟨"t", "a/b", .zero, 10⟩] 0 "a" .infinity 5 "u").1 = none ↔
      maxLocks ≤ 1 ∨ ∃ lk ∈ [(⟨"t", "a/b", .zero, 10⟩ : WriteLock)], lk.live 0 = true ∧
        ∃ x, lk.covers x = true ∧ (WriteLock.asked 0 "a" .infinity 5 "u").covers x = true) :=
  (lock_table_disjoint 0 [⟨"t", "a/b", .zero, 10⟩] 0 (.single (.create [] 0 "a/b" .zero 10 "t"))).2.2 "a" .infinity 5 "u"

/-- `defaultLockTimeout`, in nanoseconds. -/
def defaultLockTimeout : Int64 := 3600 * 1000000000

def maxLockTimeout : Int64 := 24 * 3600 * 1000000000

def timeoutSeconds (part : Bytes) : Option Int :=
  let part := trimSpaceBytes part
  if (ascii "Second-").isPrefixOf part then (parseInt (part.drop (ascii "Second-").length)).filter (0 < ·) else none

def askedSeconds (h : Bytes) : Option Int := (h.splitOn 44).findSome? timeoutSeconds

/-- A duration of so many seconds, which the multiplication may wrap, cut at the greatest. -/
def clampTimeout (n : Int) : Int64 :=
  let d := Int64.ofInt n * 1000000000
  if maxLockTimeout < d then maxLockTimeout else d

def parseTimeout (h : Bytes) : Int64 := (askedSeconds h).elim defaultLockTimeout clampTimeout

theorem askedSeconds_range {h : Bytes} {n : Int} (hn : askedSeconds h = some n) : 0 < n := by
  obtain ⟨part, -, hpart⟩ := List.exists_of_findSome?_eq_some hn
  unfold timeoutSeconds at hpart
  dsimp only at hpart
  split at hpart
  · obtain ⟨-, hpos⟩ := Option.filter_eq_some_iff.mp hpart
    exact of_decide_eq_true hpos
  · cases hpart

theorem clampTimeout_range {n : Int} (hpos : 0 < n) (hfits : n * 1000000000 ≤ Int64.maxValue.toInt) :
    0 < (clampTimeout n).toInt ∧ (clampTimeout n).toInt ≤ maxLockTimeout.toInt := by
  have hmax : Int64.maxValue.toInt = 9223372036854775807 := by decide
  have hn : (Int64.ofInt n).toInt = n := by
    rw [Int64.toInt_ofInt, show Int64.size = 18446744073709551616 from rfl]
    exact Int.bmod_eq_of_le (by omega) (by omega)
  have hmul : (Int64.ofInt n * 1000000000).toInt = n * 1000000000 := by
    rw [Int64.toInt_mul, hn, show (1000000000 : Int64).toInt = 1000000000 by decide]
    exact Int.bmod_eq_of_le (by omega) (by omega)
  unfold clampTimeout
  dsimp only
  split
  · exact ⟨by decide, le_refl _⟩
  · next hle =>
    rw [Int64.lt_iff_toInt_lt] at hle
    rw [hmul] at hle ⊢
    omega

theorem defaultLockTimeout_range : 0 < defaultLockTimeout.toInt ∧ defaultLockTimeout.toInt ≤ maxLockTimeout.toInt := by
  decide

/-- `handleLock`, with the order in which the set of tokens is walked. -/
def handleLockIn (cfg : DavConfig) (locks : LockTable) (now : Nat) (url ifHeader depth : String) (timeout : Int)
    (token : String) (tokens : List String) : Nat × LockTable :=
  match resolveName cfg.patterns url with
  | .error _ => (403, locks)
  | .ok rel =>
    let (refreshed, locks) := if ifHeader = "" then (none, locks) else refreshFirst now timeout rel tokens locks
    match refreshed with
    | some _ => (200, locks)
    | none =>
      match locks.create now rel (if depth = "0" then .zero else .infinity) timeout token with
      | (some _, locks) => (200, locks)
      | (none, locks) => (423, locks)

theorem handleLock_eq (cfg : DavConfig) (locks : LockTable) (now : Nat) (url ifHeader depth : String) (timeout : Int)
    (token : String) : handleLock cfg locks now url ifHeader depth timeout token =
      handleLockIn cfg locks now url ifHeader depth timeout token (parseIfTokens ifHeader) := by
  unfold handleLock handleLockIn
  cases resolveName cfg.patterns url with
  | error e => rfl
  | ok rel => rfl

section
variable {m : LockTable} {now : Nat} {timeout : Int} {lk : WriteLock}

theorem LockTable.mem_refresh {token : String} (h : lk ∈ (m.refresh now token timeout).2) :
    lk ∈ m ∨ lk.expires = now + timeout := by
  unfold LockTable.refresh at h
  dsimp only at h
  split at h
  · exact .inl (List.mem_filter.mp h).1
  · obtain ⟨x, hx, rfl⟩ := List.mem_map.mp h
    split
    · exact .inr rfl
    · exact .inl (List.mem_filter.mp hx).1

theorem LockTable.mem_create {path token : String} {depth : Depth}
    (h : lk ∈ (m.create now path depth timeout token).2) : lk ∈ m ∨ lk.expires = now + timeout := by
  unfold LockTable.create at h
  dsimp only at h
  split at h
  · exact .inl (List.mem_filter.mp h).1
  · split at h
    · exact .inl (List.mem_filter.mp h).1
    · rcases List.mem_append.mp h with h | h
      · exact .inl (List.mem_filter.mp (List.mem_filter.mp h).1).1
      · rw [List.mem_singleton.mp h]
        exact .inr rfl

theorem mem_refreshFirst {rel : String} {tokens : List String}
    (h : lk ∈ (refreshFirst now timeout rel tokens m).2) : lk ∈ m ∨ lk.expires = now + timeout := by
  induction tokens generalizing m with
  | nil => exact .inl h
  | cons token tokens ih =>
    have hstep : ∀ x ∈ (m.refresh now token timeout).2, x ∈ m ∨ x.expires = now + timeout := fun x => LockTable.mem_refresh
    have hlater {m' : LockTable} (hm' : ∀ x ∈ m', x ∈ m ∨ x.expires = now + timeout)
        (hlk : lk ∈ (refreshFirst now timeout rel tokens m').2) : lk ∈ m ∨ lk.expires = now + timeout :=
      (ih hlk).elim (hm' lk) .inr
    unfold refreshFirst at h
    split at h
    · next found m' hrefresh =>
      rw [hrefresh] at hstep
      split at h
      · exact hstep lk h
      · exact hlater hstep h
    · next m' hrefresh =>
      rw [hrefresh] at hstep
      exact hlater hstep h

theorem mem_handleLockIn {cfg : DavConfig} {url ifHeader depth token : String} {tokens : List String}
    (h : lk ∈ (handleLockIn cfg m now url ifHeader depth timeout token tokens).2) :
    lk ∈ m ∨ lk.expires = now + timeout := by
  unfold handleLockIn at h
  split at h
  · exact .inl h
  · next rel hrel =>
    have hfirst : ∀ x ∈ (if ifHeader = "" then (none, m) else refreshFirst now timeout rel tokens m).2,
        x ∈ m ∨ x.expires = now + timeout := by
      intro x hx
      split at hx
      · exact .inl hx
      · exact mem_refreshFirst hx
    generalize (if ifHeader = "" then (none, m) else refreshFirst now timeout rel tokens m) = r at h hfirst
    obtain ⟨refreshed, m'⟩ := r
    cases refreshed with
    | some _ => exact hfirst lk h
    | none =>
      have hnew : lk ∈ (m'.create now rel (if depth = "0" then .zero else .infinity) timeout token).2 := by
        dsimp only at h
        split at h
        · next hcreate => rw [hcreate]; exact h
        · next hcreate => rw [hcreate]; exact h
      exact (LockTable.mem_create hnew).elim (hfirst lk) .inr

end

def plainDav : DavConfig := ⟨sha256, fun _ => false, 0⟩

/-- What a LOCK request on `rel` may make of the table, apart from dropping what has expired: refresh one lock
that covers `rel`, or add a lock of `rel`. -/
def LockEffect (now : Nat) (timeout : Int) (rel : String) (before after : LockTable) : Prop :=
  (∃ lk ∈ before, lk.live now = true ∧ lk.covers rel = true ∧
      after = (before.reap now).map fun x => if x = lk then { lk with expires := now + timeout } else x) ∨
    after = before.reap now ∨ ∃ new, new.path = rel ∧ after = before.reap now ++ [new]

theorem LockTable.reap_reap (m : LockTable) (now : Nat) : (m.reap now).reap now = m.reap now := by
  simp [LockTable.reap]

section
variable {now : Nat} {timeout : Int} {rel : String}

theorem refreshFirst_cases {tokens : List String} {m : LockTable} (hkeys : (m.map WriteLock.token).Nodup)
    (hown : ∀ lk ∈ m, lk.live now = true → lk.token ∈ tokens → lk.covers rel = true) :
    (∃ lk ∈ m, lk.live now = true ∧ lk.covers rel = true ∧ (refreshFirst now timeout rel tokens m).1.isSome = true ∧
        (refreshFirst now timeout rel tokens m).2 =
          (m.reap now).map fun x => if x = lk then { lk with expires := now + timeout } else x) ∨
      (refreshFirst now timeout rel tokens m).1 = none ∧
        ((refreshFirst now timeout rel tokens m).2 = m ∨ (refreshFirst now timeout rel tokens m).2 = m.reap now) := by
  induction tokens generalizing m with
  | nil => exact .inr ⟨rfl, .inl rfl⟩
  | cons token tokens ih =>
    cases hfind : (m.reap now).find? (·.token = token) with
    | none =>
      have hrefresh : m.refresh now token timeout = (none, m.reap now) := by
        unfold LockTable.refresh
        dsimp only
        rw [hfind]
      have hlater := @ih (m.reap now) (hkeys.sublist (List.filter_sublist.map _)) fun lk hlk hlive htoken =>
        hown lk (List.mem_filter.mp hlk).1 hlive (List.mem_cons_of_mem _ htoken)
      have hstep : refreshFirst now timeout rel (token :: tokens) m = refreshFirst now timeout rel tokens (m.reap now) := by
        rw [refreshFirst, hrefresh]
      rw [hstep]
      rw [LockTable.reap_reap] at hlater
      rcases hlater with ⟨lk, hlk, hrest⟩ | ⟨hnone, htable⟩
      · exact .inl ⟨lk, (List.mem_filter.mp hlk).1, hrest⟩
      · exact .inr ⟨hnone, .inr (htable.elim id id)⟩
    | some lk =>
      obtain ⟨hmem, hlive⟩ := List.mem_filter.mp (List.mem_of_find?_eq_some hfind)
      have htoken : lk.token = token := by simpa using List.find?_some hfind
      have hcovers := hown lk hmem hlive (htoken ▸ List.mem_cons_self)
      have htable := @LockTable.refresh_eq m hkeys now token timeout lk hfind
      have hfirst : (m.refresh now token timeout).1 = some { lk with expires := now + timeout } := by
        unfold LockTable.refresh
        dsimp only
        rw [hfind]
      have hstep : refreshFirst now timeout rel (token :: tokens) m = m.refresh now token timeout := by
        rw [refreshFirst]
        revert hfirst
        generalize m.refresh now token timeout = r
        obtain ⟨found, m'⟩ := r
        rintro rfl
        dsimp only
        rw [if_pos (show WriteLock.covers { lk with expires := now + timeout } rel = true from hcovers)]
      rw [hstep, hfirst]
      exact .inl ⟨lk, hmem, hlive, hcovers, rfl, htable⟩

theorem create_effect {m : LockTable} {depth : Depth} {token : String} (hfresh : ∀ lk ∈ m, lk.token ≠ token) :
    (m.create now rel depth timeout token).2 = m.reap now ∨
      (m.create now rel depth timeout token).2 = m.reap now ++ [.asked now rel depth timeout token] := by
  unfold LockTable.create
  dsimp only
  split
  · exact .inl rfl
  · split
    · exact .inl rfl
    · have hfilter : (m.reap now).filter (·.token ≠ token) = m.reap now :=
        List.filter_eq_self.mpr fun lk hlk => decide_eq_true (hfresh lk (List.mem_filter.mp hlk).1)
      refine .inr ?_
      rw [hfilter]
      rfl

end

end BirakFormal
