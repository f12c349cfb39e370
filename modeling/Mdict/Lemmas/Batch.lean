import Mathlib.Data.List.TakeWhile
import Mdict.Lemmas.Access

/-!
This module contains what a batch of key lookups answers: decoding block by block does not change
the order of the results.
-/

namespace Mdict.MdictFile

open Effect

variable {file : MdictFile} {w : World} {I : Session → Prop} {p : Platform}
variable {blocks : List (List DecodedKeyRow)}

/-- A request is for the ordinal at its place in the batch. -/
structure IsRequest (file : MdictFile) (ordinals : List Nat) (request : KeyRequest) : Prop where
  lt : request.ordinal < file.len
  position : file.keyPosition request.ordinal = .ok (request.blockIndex, request.entryIndex)
  input : ordinals[request.inputIndex]? = some request.ordinal

theorem keyRequests_eq_ok (ordinals before : List Nat)
    : ∃ requests, file.keyRequests before.length ordinals = .ok requests
        ∧ (∀ request ∈ requests, file.IsRequest (before ++ ordinals) request)
        ∧ ∀ i ordinal, ordinals[i]? = some ordinal → ordinal < file.len →
            ∃ request ∈ requests, request.inputIndex = before.length + i := by
  induction ordinals generalizing before with
  | nil => exact ⟨[], rfl, by simp, by simp⟩
  | cons ordinal ordinals ih =>
    obtain ⟨requests, hrequests, hsound, hcomplete⟩ := ih (before ++ [ordinal])
    rw [List.append_assoc, List.singleton_append] at hsound
    rw [List.length_append, List.length_singleton] at hrequests hcomplete
    have hlater (i ordinal' : Nat) (hi : (ordinal :: ordinals)[i + 1]? = some ordinal')
        (hlt : ordinal' < file.len)
        : ∃ request ∈ requests, request.inputIndex = before.length + (i + 1) := by
      obtain ⟨request, hmem, heq⟩ := hcomplete i ordinal' hi hlt
      exact ⟨request, hmem, by omega⟩
    unfold keyRequests
    split
    . next hge =>
      refine ⟨requests, hrequests, hsound, ?_⟩
      intro i ordinal' hi hlt
      cases i with
      | zero =>
        rw [List.getElem?_cons_zero, Option.some.injEq] at hi
        omega
      | succ i => exact hlater i ordinal' hi hlt
    . next hlt =>
      have hlt : ordinal < file.len := by omega
      obtain ⟨block, _, -, -, -, hposition⟩ := file.keyPosition_eq hlt
      rw [hposition, hrequests]
      refine ⟨_, rfl, ?_, ?_⟩
      . intro request hmem
        rw [List.mem_cons] at hmem
        rcases hmem with rfl | hmem
        . exact ⟨hlt, hposition, by simp⟩
        . exact hsound request hmem
      . intro i ordinal' hi hlt'
        cases i with
        | zero => exact ⟨_, List.mem_cons_self, rfl⟩
        | succ i =>
          obtain ⟨request, hmem, heq⟩ := hlater i ordinal' hi hlt'
          exact ⟨request, List.mem_cons_of_mem _ hmem, heq⟩

/-- The results after filling in those of the requests. -/
structure Filled (file : MdictFile) (p : Platform) (requests : List KeyRequest)
    (results results' : List (Option KeyEntry))
    : Prop where
  length_eq : results'.length = results.length
  other : ∀ i, (∀ request ∈ requests, request.inputIndex ≠ i) → results'[i]? = results[i]?
  requested : ∀ request ∈ requests, request.inputIndex < results.length →
    ∃ other ∈ requests, ∃ key, other.inputIndex = request.inputIndex
      ∧ results'[request.inputIndex]? = some (some ⟨other.ordinal, key⟩)
      ∧ file.HasKey p other.ordinal key

theorem Filled.nil {results : List (Option KeyEntry)} : file.Filled p [] results results :=
  ⟨rfl, fun _ _ => rfl, by simp⟩

theorem Filled.append {requests requests' : List KeyRequest}
    {results results' results'' : List (Option KeyEntry)}
    (h : file.Filled p requests results results') (h' : file.Filled p requests' results' results'')
    : file.Filled p (requests ++ requests') results results'' where
  length_eq := h'.length_eq.trans h.length_eq
  other := by
    intro i hi
    simp only [List.mem_append] at hi
    rw [h'.other i (fun request hmem => hi request (.inr hmem)),
      h.other i (fun request hmem => hi request (.inl hmem))]
  requested := by
    intro request hmem hlt
    -- The later requests have the last word.
    by_cases hlater : ∃ other ∈ requests', other.inputIndex = request.inputIndex
    . obtain ⟨other, hother, heq⟩ := hlater
      obtain ⟨other', hother', key, heq', hresult, hkey⟩ :=
        h'.requested other hother (by rw [heq, h.length_eq]; exact hlt)
      rw [heq] at heq' hresult
      exact ⟨other', List.mem_append_right _ hother', key, heq', hresult, hkey⟩
    . have hnone : ∀ other ∈ requests', other.inputIndex ≠ request.inputIndex :=
        fun other hother heq => hlater ⟨other, hother, heq⟩
      have hmem' : request ∈ requests := by
        rw [List.mem_append] at hmem
        exact hmem.resolve_right fun hmem => hnone request hmem rfl
      obtain ⟨other, hother, key, heq, hresult, hkey⟩ := h.requested request hmem' hlt
      refine ⟨other, List.mem_append_left _ hother, key, heq, ?_, hkey⟩
      rw [h'.other _ hnone]
      exact hresult

theorem fillKeys_eq_ok {ordinals : List Nat} {entries : List DecodedKeyRow} {blockIndex : Nat}
    (hentries : file.freshRows p blockIndex = .ok entries) (requests : List KeyRequest)
    (hrequests : ∀ request ∈ requests,
      file.IsRequest ordinals request ∧ request.blockIndex = blockIndex)
    (results : List (Option KeyEntry))
    : ∃ results', fillKeys entries results requests = .ok results'
        ∧ file.Filled p requests results results' := by
  induction requests generalizing results with
  | nil => exact ⟨results, rfl, .nil⟩
  | cons request requests ih =>
    obtain ⟨hrequest, hblock⟩ := hrequests request List.mem_cons_self
    have hhit : file.IsHit p request.ordinal ⟨blockIndex, request.entryIndex, entries⟩ :=
      ⟨hrequest.lt, by rw [hrequest.position, hblock], hentries⟩
    have hentry : request.entryIndex < entries.length := hhit.entryIndex_lt
    have hrow := List.getElem?_eq_getElem hentry
    obtain ⟨results', hfill, hfilled⟩ := ih
      (fun request hmem => hrequests request (List.mem_cons_of_mem _ hmem))
      (results.set request.inputIndex
        (some ⟨request.ordinal, entries[request.entryIndex].key⟩))
    refine ⟨results', ?_, ?_⟩
    . rw [fillKeys, hrow, okOr_some, except_ok_bind]
      exact hfill
    . have hset : file.Filled p [request] results (results.set request.inputIndex
          (some ⟨request.ordinal, entries[request.entryIndex].key⟩)) := by
        constructor
        . exact List.length_set
        . intro i hi
          exact List.getElem?_set_ne (hi request (List.mem_singleton.mpr rfl))
        . intro request' hmem hlt
          rw [List.mem_singleton] at hmem
          subst hmem
          exact ⟨request', List.mem_singleton.mpr rfl, _, rfl,
            List.getElem?_set_self hlt, _, _, hhit, hrow, rfl⟩
      exact hset.append hfilled

theorem fillBlocks_ensures (hI : file.Invariant w.platform I) {ordinals : List Nat}
    (requests : List KeyRequest)
    (hrequests : ∀ request ∈ requests, file.IsRequest ordinals request)
    (results : List (Option KeyEntry))
    : Ensures w I (file.fillBlocks results requests)
        (fun results' => file.Filled w.platform requests results results')
        (fun e => Interrupted w e ∨ ∃ ordinal ∈ ordinals, file.FailsAt w.platform ordinal e) := by
  induction hlen : requests.length using Nat.strongRecOn generalizing requests results with
  | ind n ih =>
    cases requests with
    | nil =>
      unfold fillBlocks
      exact .pure .nil
    | cons request rest =>
      have hsplit : request :: rest
          = (request :: rest.takeWhile (·.blockIndex == request.blockIndex))
            ++ rest.dropWhile (·.blockIndex == request.blockIndex) := by
        rw [List.cons_append, List.takeWhile_append_dropWhile]
      have hrequest := hrequests request List.mem_cons_self
      unfold fillBlocks
      apply Ensures.bind
      . apply (decodeKeyBlock_ensures hI request.blockIndex).mono (fun _ h => h)
        rintro e (he | ⟨origin, hle, he⟩)
        . exact .inl he
        . exact .inr ⟨request.ordinal, List.mem_of_getElem? hrequest.input, hrequest.lt,
            _, _, origin, hrequest.position, hle, he⟩
      . intro entries hentries
        obtain ⟨results', hfill, hfilled⟩ := @fillKeys_eq_ok _ _ ordinals _ _ hentries
          (request :: rest.takeWhile (·.blockIndex == request.blockIndex))
          (by
            intro other hother
            refine ⟨hrequests other (hsplit ▸ List.mem_append_left _ hother), ?_⟩
            rw [List.mem_cons] at hother
            rcases hother with rfl | hother
            . rfl
            . have := List.mem_takeWhile_imp hother
              simpa using this) results
        dsimp only
        rw [hfill]
        apply Ensures.bind (R := fun r => r = results')
        . exact .liftM (fun r heq => by injection heq with heq; exact heq.symm)
            (fun e he => by contradiction)
        . rintro _ rfl
          have hle := (List.dropWhile_sublist (l := rest)
            (·.blockIndex == request.blockIndex)).length_le
          rw [List.length_cons] at hlen
          apply (ih _ (by omega) _ _ _ rfl).mono _ (fun _ h => h)
          . intro other hother
            exact hrequests other (hsplit ▸ List.mem_append_right _ hother)
          . intro results'' hfilled'
            rw [hsplit]
            exact hfilled.append hfilled'

/-- A batch answers for each of its ordinals what a single lookup answers. -/
theorem keysAtOrdinals_ensures (hI : file.Invariant w.platform I) (ordinals : List Nat)
    : Ensures w I (file.keysAtOrdinals ordinals)
        (fun results => results.length = ordinals.length
          ∧ ∀ (i ordinal : Nat), ordinals[i]? = some ordinal →
            (results[i]? = some none ∧ file.len ≤ ordinal)
              ∨ ∃ key : Str, results[i]? = some (some ⟨ordinal, key⟩)
                ∧ file.HasKey w.platform ordinal key)
        (fun e => Interrupted w e ∨ ∃ ordinal ∈ ordinals, file.FailsAt w.platform ordinal e) := by
  obtain ⟨requests, hrequests, hsound, hcomplete⟩ := @keyRequests_eq_ok file ordinals []
  rw [List.nil_append] at hsound
  rw [List.length_nil] at hrequests hcomplete
  unfold keysAtOrdinals
  rw [hrequests]
  apply Ensures.bind (R := fun r => r = requests)
  . exact .liftM (fun r heq => by injection heq with heq; exact heq.symm)
      (fun e he => by contradiction)
  . rintro _ rfl
    dsimp only
    apply (@fillBlocks_ensures _ _ _ hI ordinals _ (fun request hmem =>
      hsound request (List.mem_mergeSort.mp hmem)) _).mono _ (fun _ h => h)
    intro results hfilled
    have hlen : results.length = ordinals.length := by
      rw [hfilled.length_eq, List.length_replicate]
    refine ⟨hlen, ?_⟩
    intro i ordinal hi
    have hi' := (List.getElem?_eq_some_iff.mp hi).1
    by_cases hlt : ordinal < file.len
    . right
      obtain ⟨request, hmem, hindex⟩ := hcomplete i ordinal hi hlt
      rw [Nat.zero_add] at hindex
      obtain ⟨other, hother, key, heq, hresult, hkey⟩ := hfilled.requested request
        (List.mem_mergeSort.mpr hmem) (by rw [List.length_replicate]; omega)
      have hinput := (hsound other (List.mem_mergeSort.mp hother)).input
      rw [heq, hindex, hi, Option.some.injEq] at hinput
      rw [hindex] at hresult
      rw [← hinput] at hresult hkey
      exact ⟨key, hresult, hkey⟩
    . left
      refine ⟨?_, by omega⟩
      rw [hfilled.other i, List.getElem?_replicate_of_lt hi']
      intro request hmem heq
      have hrequest := hsound request (List.mem_mergeSort.mp hmem)
      have hinput := hrequest.input
      rw [heq, hi, Option.some.injEq] at hinput
      have := hrequest.lt
      omega

theorem keysAtOrdinals_answers (hI : file.Invariant w.platform I)
    (h : file.DecodesTo w.platform blocks) (ordinals : List Nat)
    : Answers w I (file.keysAtOrdinals ordinals)
        (.ok (ordinals.map fun ordinal => (keysOf blocks)[ordinal]?.map (KeyEntry.mk ordinal))) := by
  apply (keysAtOrdinals_ensures hI ordinals).mono
  . rintro results ⟨hlen, hresults⟩
    congr 1
    apply List.ext_getElem?
    intro i
    rw [List.getElem?_map]
    cases hi : ordinals[i]? with
    | none =>
      rw [List.getElem?_eq_none_iff] at hi
      rw [List.getElem?_eq_none (by omega)]
      rfl
    | some ordinal =>
      rcases hresults i ordinal hi with ⟨heq, hge⟩ | ⟨key, heq, hkey⟩
      . rw [heq, Option.map_some, List.getElem?_eq_none (by rw [h.length_keysOf]; exact hge)]
        rfl
      . rw [heq, Option.map_some, h.hasKey_iff.mp hkey]
        rfl
  . rintro e (he | ⟨ordinal, -, he⟩)
    . exact .inl he
    . exact absurd he h.not_failsAt

end Mdict.MdictFile
