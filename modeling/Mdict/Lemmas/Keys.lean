import Mdict.Lemmas.Descriptors
import Mdict.Lemmas.KeyRows

/-!
This module contains the theory of the key block cache: what decoding a block yields depends on the
bytes of the block, those of its predecessor and what the cache holds of either.
-/

namespace Mdict

open Effect

/-- What a cached value stands for. -/
def CachedValue.result {α : Type} : CachedValue α → Except Error α
  | ready value => .ok value
  | failed failure => .error failure.replay

/-- What a cache of one key block can hold. -/
abbrev KeyBlockCache := Option (Nat × CachedValue (List DecodedKeyRow))

namespace MdictFile

variable (file : MdictFile) (p : Platform)

/-! ## Blocks on their own -/

theorem keySummaryMatches_steady (decodedKey indexSummary : Str)
    : Steady p (file.keySummaryMatches decodedKey indexSummary) := by
  have hlen (n : KeyNormalizer) (p : Platform) (raw : Str) : Settles (n.normalizedLen p raw) := by
    have haux (length : Nat) (characters : List Char)
        : Settles (KeyNormalizer.addLengths length characters) := by
      induction characters generalizing length with
      | nil => exact .ok
      | cons character characters ih => exact .bind (.okOr rfl) fun _ => ih _
    have hfrom (length : Nat) (atPathStart : Bool)
        : Settles (n.normalizedLenFrom p length atPathStart raw) := by
      induction raw generalizing length atPathStart with
      | nil => exact .ok
      | cons character raw ih =>
        exact .ite (ih _ _) (.ite (ih _ _) (.bind (haux _ _) fun _ => ih _ _))
    exact hfrom 0 true
  have hnormalize (n : KeyNormalizer) (p : Platform) (raw : Str) : Settles (n.normalize p raw) :=
    .bind (hlen n p raw) fun _ => .pure
  exact .bind .platform fun _ => .bind (.liftM (hlen _ _ _)) fun _ =>
    .bind (.liftM (hlen _ _ _)) fun _ => .bind (.liftM (.okOr rfl)) fun _ =>
    .bind .reserve fun _ => .bind (.liftM (hnormalize _ _ _)) fun _ =>
    .bind (.liftM (hnormalize _ _ _)) fun _ => .pure

theorem boundariesMatch_steady (first last : DecodedKeyRow) (block : KeyBlockDescriptor)
    : Steady p (file.boundariesMatch first last block) :=
  .bind (file.keySummaryMatches_steady p _ _) fun _ =>
    .ite (file.keySummaryMatches_steady p _ _) .pure

theorem decodeKeyBlockUncached_steady (index : Nat)
    : Steady p (file.decodeKeyBlockUncached index) :=
  .bind (.liftM (.okOr rfl)) fun _ => .bind (.liftM .checkedUsize) fun _ =>
    .bind (.liftM .checkedUsize) fun _ => .bind (.liftM .checkedUsize) fun _ =>
    .bind .platform fun _ => .bind (.liftM maxDecodedLen_settles) fun _ =>
    .bind (.liftM (.okOr rfl)) fun _ => .bind (.liftM (.okOr rfl)) fun _ =>
    .bind .reserve fun _ => .bind .reserve fun _ => .bind .reserve fun _ =>
    .bind .readExactAt fun _ => .bind decodeBlock_steady fun _ =>
    .bind (.liftM decodeKeyRows_settles) fun _ => .bind (.liftM (.okOr rfl)) fun _ =>
    .bind (.liftM (.okOr rfl)) fun _ => .bind (file.boundariesMatch_steady p _ _ _) fun _ =>
    .bind (.liftM (.failIf rfl)) fun _ => .pure

/-- What the bytes of key block `index` decode to, whatever the other blocks are. -/
def ownRows (index : Nat) : Except Error (List DecodedKeyRow) :=
  outcome p (file.decodeKeyBlockUncached index)

/-- The rows of a block that decodes are as many as declared, and their starts are ordered. -/
theorem ownRows_eq_ok {index : Nat} {rows : List DecodedKeyRow}
    (h : file.ownRows p index = .ok rows)
    : ∃ block, file.layout.keyBlocks[index]? = some block ∧ rows.length = block.entryCount
        ∧ rows ≠ [] ∧ StartsFrom file.layout.totalDecodedRecordLen 0 rows := by
  have hrun : file.decodeKeyBlockUncached index (.calm p) .fresh
      = (.ok rows, (file.decodeKeyBlockUncached index (.calm p) .fresh).2) := by
    rw [← h]
    rfl
  simp only [decodeKeyBlockUncached, Prog.bind_eq_ok, liftM_eq_ok, okOr_eq_ok] at hrun
  obtain ⟨block, _, ⟨hblock, -⟩, hrun⟩ := hrun
  obtain ⟨_, _, -, _, _, -, _, _, -, _, _, -, _, _, -, _, _, -, _, _, -, _, _, -, _, _, -, _, _, -,
    _, _, -, _, _, -, hrun⟩ := hrun
  obtain ⟨parsed, _, ⟨hparsed, -⟩, hrun⟩ := hrun
  obtain ⟨first, _, ⟨hfirst, -⟩, hrun⟩ := hrun
  obtain ⟨_, _, -, _, _, -, _, _, -, hrun⟩ := hrun
  rw [Prog.pure_apply, Prod.mk.injEq, Except.ok.injEq] at hrun
  obtain ⟨rfl, -⟩ := hrun
  obtain ⟨hlen, hstarts⟩ := decodeKeyRows_eq_ok hparsed
  refine ⟨block, hblock, hlen, ?_, hstarts⟩
  rintro rfl
  contradiction

/-! ## Blocks behind the cache -/

/-- What the predecessor of a block decodes to when the cache holds `cache`. -/
def previousResult (index : Nat) (cache : KeyBlockCache) : Except Error (List DecodedKeyRow) :=
  match cache with
  | some (cachedIndex, value) => if cachedIndex = index then value.result else file.ownRows p index
  | none => file.ownRows p index

/-- The record start of the last row before block `index`. -/
def previousStart (index : Nat) (cache : KeyBlockCache) : Except Error (Option Nat) :=
  match index with
  | 0 => .ok none
  | previous + 1 => do
    let rows ← file.previousResult p previous cache
    let last ← okOr rows.getLast? (.invalidFormat "empty decoded key block")
    return some last.recordStart

/-- What block `index` decodes to when the cache holds `cache`, but not that block. -/
def missResult (index : Nat) (cache : KeyBlockCache) : Except Error (List DecodedKeyRow) := do
  failIf (file.layout.keyBlocks[index]? = none) (.invalidFormat "key block index out of range")
  let previousLast ← file.previousStart p index cache
  let entries ← file.ownRows p index
  checkBoundary previousLast entries
  return entries

theorem previousLast_yields (index : Nat) (cache : KeyBlockCache)
    : Yields p (file.previousLast index cache) (file.previousStart p index cache) := by
  cases index with
  | zero => exact .pure
  | succ previous =>
    have hrows : Yields p (file.previousRows previous cache)
        (file.previousResult p previous cache) := by
      unfold previousRows previousResult
      cases cache with
      | none => exact (file.decodeKeyBlockUncached_steady p previous).yields
      | some cached =>
        obtain ⟨cachedIndex, value⟩ := cached
        dsimp only
        split
        . cases value with
          | ready rows => exact .pure
          | failed failure => exact .fail
        . exact (file.decodeKeyBlockUncached_steady p previous).yields
    exact hrows.bind fun _ => .bind .liftM fun _ => .pure

theorem checkBoundary_settles (previousLast : Option Nat) (entries : List DecodedKeyRow)
    : Settles (checkBoundary previousLast entries) := by
  cases previousLast with
  | none => exact .ok
  | some previousLast => exact .bind (.okOr rfl) fun _ => .failIf rfl

/-- The failures in a cache are settled. -/
def CacheSettled (cache : KeyBlockCache) : Prop :=
  ∀ index value, cache = some (index, value) → Settles value.result

theorem CacheSettled.none : CacheSettled none := by
  intro index value h
  contradiction

theorem missResult_settles {cache : KeyBlockCache} (index : Nat) (h : CacheSettled cache)
    : Settles (file.missResult p index cache) := by
  refine .bind (.failIf rfl) fun _ => .bind ?_ fun _ =>
    .bind (file.decodeKeyBlockUncached_steady p index).settles fun _ =>
    .bind (checkBoundary_settles _ _) fun _ => .pure
  cases index with
  | zero => exact .ok
  | succ previous =>
    refine .bind ?_ fun _ => .bind (.okOr rfl) fun _ => .pure
    unfold previousResult
    cases cache with
    | none => exact (file.decodeKeyBlockUncached_steady p previous).settles
    | some cached =>
      obtain ⟨cachedIndex, value⟩ := cached
      exact .ite (h cachedIndex value rfl) (file.decodeKeyBlockUncached_steady p previous).settles

/-- A decode past the cache yields its result; it drops the cache before it reads the block. -/
theorem decodeKeyBlockMiss_run (index : Nat) (cache : KeyBlockCache) {w : World} (s : Session)
    (hw : w.platform = p)
    : ∃ events cache', (cache' = s.keyBlockCache ∨ cache' = none) ∧
        (file.decodeKeyBlockMiss index cache w s
            = (file.missResult p index cache, { s with events, keyBlockCache := cache' })
          ∨ ∃ e, Interrupted w e ∧ file.decodeKeyBlockMiss index cache w s
            = (.error e, { s with events, keyBlockCache := cache' })) := by
  unfold decodeKeyBlockMiss missResult
  by_cases hblock : file.layout.keyBlocks[index]? = none
  . refine ⟨s.events, s.keyBlockCache, .inl rfl, .inl ?_⟩
    simp [failIf, hblock]
  . simp only [failIf_of_not hblock, except_ok_bind, Prog.ok_bind_apply]
    obtain ⟨events, hprev | ⟨e, he, hprev⟩⟩ := file.previousLast_yields p index cache w s hw
    . cases hstart : file.previousStart p index cache with
      | error e =>
        rw [hstart] at hprev
        rw [Prog.bind_of_error hprev]
        exact ⟨events, s.keyBlockCache, .inl rfl, .inl rfl⟩
      | ok previousStart =>
        rw [hstart] at hprev
        rw [Prog.bind_of_ok hprev, Prog.modify_bind_apply]
        have hrest : Yields p
            (do
              let entries ← file.decodeKeyBlockUncached index
              checkBoundary previousStart entries
              return entries)
            (do
              let entries ← file.ownRows p index
              checkBoundary previousStart entries
              return entries) :=
          (file.decodeKeyBlockUncached_steady p index).yields.bind fun _ =>
            .bind .liftM fun _ => .pure
        obtain ⟨events, hrest | ⟨e, he, hrest⟩⟩ :=
          hrest w { s with events, keyBlockCache := none } hw
        . exact ⟨events, none, .inr rfl, .inl hrest⟩
        . exact ⟨events, none, .inr rfl, .inr ⟨e, he, hrest⟩⟩
    . rw [Prog.bind_of_error hprev]
      exact ⟨events, s.keyBlockCache, .inl rfl, .inr ⟨e, he, rfl⟩⟩

/--
How decoding block `index` ends when the cache held `cache` before: with an outcome and what the
cache holds afterwards.
-/
inductive KeyBlockRun (w : World) (index : Nat) (cache : KeyBlockCache)
    : Except Error (List DecodedKeyRow) → KeyBlockCache → Prop where
  /-- The block is in the cache. -/
  | hit (value : CachedValue (List DecodedKeyRow)) (hit : cache = some (index, value))
    : KeyBlockRun w index cache value.result cache
  /-- What comes out of the decode is kept. -/
  | kept (value : CachedValue (List DecodedKeyRow)) (miss : ∀ value, cache ≠ some (index, value))
      (result : value.result = file.missResult w.platform index cache)
    : KeyBlockRun w index cache value.result (some (index, value))
  /-- The decode fails in a way that is not kept. -/
  | dropped (error : Error) (cache' : KeyBlockCache) (cache'_eq : cache' = cache ∨ cache' = none)
      (cause : Interrupted w error ∨ file.missResult w.platform index cache = .error error)
      (unkept : error.isSettled → ¬w.Quiet)
    : KeyBlockRun w index cache (.error error) cache'

theorem failKeyBlock_run (index : Nat) (e : Error) (w : World) (s : Session)
    : ∃ kept events,
        failKeyBlock (α := List DecodedKeyRow) index e w s
            = (.error e, { s with
                events
                keyBlockCache := match kept with
                  | some failure => some (index, .failed failure)
                  | none => s.keyBlockCache })
          ∧ (∀ failure, kept = some failure → failure.replay = e ∧ e.isSettled)
          ∧ (kept = none → e.isSettled → ¬w.Quiet) := by
  obtain ⟨kept, events, hcapture, hsome, hnone⟩ := CachedFailureKind.capture_run e w s
  refine ⟨kept, events, ?_, hsome, hnone⟩
  rw [failKeyBlock, Prog.bind_of_ok hcapture, Prog.modify_bind_apply, Prog.fail_apply]
  cases kept with
  | none => rfl
  | some failure => rfl

theorem decodeAndCacheKeyBlock_run (index : Nat) (w : World) (s : Session)
    (hmiss : ∀ value, s.keyBlockCache ≠ some (index, value))
    : ∃ r events cache',
        file.decodeAndCacheKeyBlock index s.keyBlockCache w s
            = (r, { s with events, keyBlockCache := cache' })
          ∧ file.KeyBlockRun w index s.keyBlockCache r cache' := by
  obtain ⟨events, cache', hcache', h⟩ :=
    file.decodeKeyBlockMiss_run w.platform index s.keyBlockCache s rfl
  have herror (e : Error)
      (hrun : file.decodeKeyBlockMiss index s.keyBlockCache w s
        = (.error e, { s with events, keyBlockCache := cache' }))
      (hcause : Interrupted w e ∨ file.missResult w.platform index s.keyBlockCache = .error e)
      : ∃ r events cache',
          file.decodeAndCacheKeyBlock index s.keyBlockCache w s
              = (r, { s with events, keyBlockCache := cache' })
            ∧ file.KeyBlockRun w index s.keyBlockCache r cache' := by
    obtain ⟨kept, events', hfail, hsome, hnone⟩ :=
      failKeyBlock_run index e w { s with events, keyBlockCache := cache' }
    rw [decodeAndCacheKeyBlock, Prog.attempt_bind_apply, hrun]
    refine ⟨.error e, events', _, hfail, ?_⟩
    cases kept with
    | none => exact .dropped e cache' hcache' hcause (hnone rfl)
    | some failure =>
      obtain ⟨hreplay, hsettled⟩ := hsome failure rfl
      have hresult : (CachedValue.failed (α := List DecodedKeyRow) failure).result = .error e := by
        rw [CachedValue.result, hreplay]
      rw [← hresult]
      apply KeyBlockRun.kept _ hmiss
      rw [hresult]
      rcases hcause with hcause | hcause
      . have := hcause.1
        simp [Error.isSettled, this] at hsettled
      . exact hcause.symm
  rcases h with h | ⟨e, he, h⟩
  . cases hresult : file.missResult w.platform index s.keyBlockCache with
    | ok rows =>
      rw [hresult] at h
      rw [decodeAndCacheKeyBlock, Prog.attempt_bind_apply, h]
      exact ⟨.ok rows, events, some (index, .ready rows), rfl, .kept (.ready rows) hmiss hresult.symm⟩
    | error e =>
      rw [hresult] at h
      exact herror e h (.inr hresult)
  . exact herror e h (.inl he)

/-- What one decode of a key block does. -/
theorem decodeKeyBlock_run (index : Nat) (w : World) (s : Session)
    : ∃ r events cache',
        file.decodeKeyBlock index w s = (r, { s with events, keyBlockCache := cache' })
          ∧ file.KeyBlockRun w index s.keyBlockCache r cache' := by
  have hmissed (hmiss : ∀ value, s.keyBlockCache ≠ some (index, value)) :=
    file.decodeAndCacheKeyBlock_run index w s hmiss
  rw [decodeKeyBlock, Prog.get_bind_apply]
  cases hcache : s.keyBlockCache with
  | none =>
    rw [hcache] at hmissed
    exact hmissed (by simp)
  | some cached =>
    obtain ⟨cachedIndex, value⟩ := cached
    dsimp only
    by_cases hindex : cachedIndex = index
    . rw [if_pos hindex]
      refine ⟨value.result, s.events, some (cachedIndex, value), ?_, .hit value (by rw [hindex])⟩
      rw [← hcache]
      cases value with
      | ready rows => rfl
      | failed failure => rfl
    . rw [if_neg hindex]
      rw [hcache] at hmissed
      apply hmissed
      intro value' h
      simp only [Option.some.injEq, Prod.mk.injEq] at h
      exact hindex h.1

/-- What block `index` decodes to on a fresh handle. -/
def freshRows (index : Nat) : Except Error (List DecodedKeyRow) :=
  outcome p (file.decodeKeyBlock index)

theorem freshRows_eq (index : Nat) : file.freshRows p index = file.missResult p index none := by
  obtain ⟨r, events, cache', hrun, h⟩ := file.decodeKeyBlock_run index (.calm p) .fresh
  rw [freshRows, outcome, hrun]
  cases h with
  | hit value hit => contradiction
  | kept value miss result => exact result
  | dropped error cache' cache'_eq cause unkept =>
    rcases cause with cause | cause
    . exact absurd cause (not_interrupted (World.calm_quiet p))
    . exact cause.symm

theorem freshRows_settles (index : Nat) : Settles (file.freshRows p index) := by
  rw [freshRows_eq]
  exact file.missResult_settles p index .none

/-- A block decodes on a fresh handle when it decodes on its own and joins its predecessor. -/
theorem freshRows_eq_ok {index : Nat} {rows : List DecodedKeyRow}
    : file.freshRows p index = .ok rows ↔
        file.ownRows p index = .ok rows ∧
          ∀ previous, previous + 1 = index → ∃ before, file.ownRows p previous = .ok before ∧
            ∀ last first, before.getLast? = some last → rows.head? = some first →
              last.recordStart ≤ first.recordStart := by
  rw [freshRows_eq]
  unfold missResult
  constructor
  . intro h
    simp only [except_bind_eq_ok, failIf_eq_ok, except_pure_eq_ok] at h
    obtain ⟨⟨⟩, -, start, hstart, rows', hrows, ⟨⟩, hcheck, rfl⟩ := h
    refine ⟨hrows, ?_⟩
    rintro previous rfl
    simp only [previousStart, previousResult, except_bind_eq_ok, okOr_eq_ok,
      except_pure_eq_ok] at hstart
    obtain ⟨before, hbefore, last, hlast, rfl⟩ := hstart
    refine ⟨before, hbefore, ?_⟩
    intro last' first hlast' hfirst
    rw [hlast, Option.some.injEq] at hlast'
    subst hlast'
    simpa [checkBoundary, hfirst] using hcheck
  . intro h
    obtain ⟨hrows, hprevious⟩ := h
    obtain ⟨block, hblock, -, hne, -⟩ := file.ownRows_eq_ok p hrows
    simp only [except_bind_eq_ok, failIf_eq_ok, except_pure_eq_ok]
    have hfirst := List.head?_eq_some_head hne
    cases index with
    | zero => exact ⟨(), by simp [hblock], none, rfl, rows, hrows, (), rfl, rfl⟩
    | succ previous =>
      obtain ⟨before, hbefore, hle⟩ := hprevious previous rfl
      obtain ⟨_, -, -, hne', -⟩ := file.ownRows_eq_ok p hbefore
      have hlast := List.getLast?_eq_some_getLast hne'
      refine ⟨(), by simp [hblock], some (before.getLast hne').recordStart, ?_, rows, hrows, (), ?_,
        rfl⟩
      . simp only [previousStart, previousResult, except_bind_eq_ok, okOr_eq_ok, except_pure_eq_ok]
        exact ⟨before, hbefore, _, hlast, rfl⟩
      . simpa [checkBoundary, hfirst] using hle _ _ hlast hfirst

/-! ## The invariant of the cache -/

/--
What every history leaves in the key block cache: the rows that a fresh handle decodes, or the
failure that a fresh handle meets in this block or in one before it.
-/
structure KeyCacheSound (cache : KeyBlockCache) : Prop where
  ready : ∀ index rows, cache = some (index, .ready rows) → file.freshRows p index = .ok rows
  failed : ∀ index failure, cache = some (index, .failed failure) →
    ∃ origin, origin ≤ index ∧ file.freshRows p origin = .error failure.replay

namespace KeyCacheSound

variable {file} {p}

theorem none : file.KeyCacheSound p none where
  ready := by
    intro index rows h
    contradiction
  failed := by
    intro index failure h
    contradiction

theorem settled {cache : KeyBlockCache} (h : file.KeyCacheSound p cache) : CacheSettled cache := by
  intro index value hcache
  cases value with
  | ready rows => exact .ok
  | failed failure =>
    obtain ⟨origin, -, horigin⟩ := h.failed index failure hcache
    exact .error (file.freshRows_settles p origin _ horigin)

/--
Past a sound cache a block decodes as on a fresh handle, unless the cache holds a failure of its
predecessor.
-/
theorem missResult_eq {cache : KeyBlockCache} (h : file.KeyCacheSound p cache) (index : Nat)
    : file.missResult p index cache = file.freshRows p index ∨
        ∃ previous failure, previous + 1 = index ∧ cache = some (previous, .failed failure)
          ∧ file.missResult p index cache = .error failure.replay := by
  rw [freshRows_eq]
  cases index with
  | zero => exact .inl rfl
  | succ previous =>
    cases hcache : cache with
    | none => exact .inl rfl
    | some cached =>
      obtain ⟨cachedIndex, value⟩ := cached
      by_cases hindex : cachedIndex = previous
      . subst hindex
        cases value with
        | ready rows =>
          left
          have hown := ((file.freshRows_eq_ok p).mp (h.ready _ _ hcache)).1
          simp only [missResult, previousStart, previousResult, if_pos, CachedValue.result, hown]
        | failed failure =>
          by_cases hblock : file.layout.keyBlocks[cachedIndex + 1]? = Option.none
          . left
            simp only [missResult, failIf, if_pos hblock, except_error_bind]
          . right
            refine ⟨cachedIndex, failure, rfl, rfl, ?_⟩
            simp only [missResult, failIf_of_not hblock, previousStart, previousResult, if_pos,
              CachedValue.result, except_ok_bind, except_error_bind]
      . left
        simp only [missResult, previousStart, previousResult, if_neg hindex]

/-- What comes out of a decode past a sound cache is the matter of a fresh handle. -/
theorem missResult_cases {cache : KeyBlockCache} (h : file.KeyCacheSound p cache) (index : Nat)
    : (∀ rows, file.missResult p index cache = .ok rows → file.freshRows p index = .ok rows)
        ∧ ∀ e, file.missResult p index cache = .error e →
          ∃ origin, origin ≤ index ∧ file.freshRows p origin = .error e := by
  rcases h.missResult_eq index with heq | ⟨previous, failure, hindex, hcache, heq⟩
  . rw [heq]
    exact ⟨fun rows hrows => hrows, fun e he => ⟨index, Nat.le_refl _, he⟩⟩
  . rw [heq]
    refine ⟨fun rows hrows => by contradiction, fun e he => ?_⟩
    injection he with he
    obtain ⟨origin, hle, horigin⟩ := h.failed previous failure hcache
    exact ⟨origin, by omega, he ▸ horigin⟩

/-- One decode keeps the cache sound, and answers with what a fresh handle would meet. -/
theorem run {w : World} {index : Nat} {cache cache' : KeyBlockCache}
    {r : Except Error (List DecodedKeyRow)} (h : file.KeyCacheSound w.platform cache)
    (hrun : file.KeyBlockRun w index cache r cache')
    : file.KeyCacheSound w.platform cache'
        ∧ (∀ rows, r = .ok rows → file.freshRows w.platform index = .ok rows)
        ∧ ∀ e, r = .error e → Interrupted w e ∨
            ∃ origin, origin ≤ index ∧ file.freshRows w.platform origin = .error e := by
  obtain ⟨hok, herror⟩ := h.missResult_cases index
  cases hrun with
  | hit value hit =>
    refine ⟨h, ?_, ?_⟩
    . intro rows hrows
      cases value with
      | ready rows' =>
        injection hrows with hrows
        exact hrows ▸ h.ready index rows' hit
      | failed failure => contradiction
    . intro e he
      cases value with
      | ready rows => contradiction
      | failed failure =>
        injection he with he
        exact .inr (he ▸ h.failed index failure hit)
  | kept value miss result =>
    refine ⟨⟨?_, ?_⟩, fun rows hrows => hok rows (result ▸ hrows),
      fun e he => .inr (herror e (result ▸ he))⟩
    . intro index' rows hcache
      cases hcache
      exact hok rows result.symm
    . intro index' failure hcache
      cases hcache
      exact herror failure.replay result.symm
  | dropped error cache' cache'_eq cause unkept =>
    refine ⟨?_, fun rows hrows => by contradiction, ?_⟩
    . rcases cache'_eq with rfl | rfl
      . exact h
      . exact .none
    . intro e he
      injection he with he
      subst he
      rcases cause with cause | cause
      . exact .inl cause
      . exact .inr (herror error cause)

end KeyCacheSound

end MdictFile

end Mdict
