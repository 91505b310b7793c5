/-
  BitcoinSpoon.Manager.Received — whether a `tx` message lets the process go on
  (`received`, `code/Node.c`; `tx`, `code/NodeManager.c`).

  The event `.tx` of a manager with pending sends is the handler `tx` on its entries and
  their memory (`sendingStep_tx`); so it returns exactly where `tx` does
  (`tx_finishes_iff`). A peer stops the process with a whole transaction and one byte more
  (`not_tx_finishes`), or with a count that no list can hold (`tx_counted`); and any peer's
  second transaction does while a send waits, if the first one was not what it waits for
  (`tx_twice`).
-/

import BitcoinSpoon.Manager.Rejects

namespace BitcoinSpoon.Manager

open Wire Connection

/-- `sendTxOnResults` as `tx` finds it. -/
def Sending.sends (s : Sending) : PendingSends PendingResult := ⟨s.entries, s.released⟩

/-- The handler has returned. -/
def Sending.apply (s : Sending) (effect : TxEffect PendingResult) : Sending :=
  { s with
    manager :=
      { s.manager with
        sendTxOnResults := effect.sends.entries
        reports := s.manager.reports ++
          effect.reported.flatMap fun entry => Report.of entry NodeManagerErrorNone (some entry.ptr) }
    released := effect.sends.released }

variable {c : Crypto} {s : Sending}

theorem running_iff : s.running = true ↔ s.failure = none ∧ s.manager.aborted = false := by
  simp [Sending.running]

/-- The event is the handler, on the entries and what has become of their memory. -/
theorem sendingStep_tx (h : s.running = true) (env : Surroundings) (node : BitcoinSpoon.Node) (payload : Data) :
    match tx c PendingResult.toSendTxOnResult env.room node s.manager.activeNode s.sends payload with
    | .error _ => (sendingStep c s (.manager ⟨env, .tx node payload⟩)).running = false
    | .ok effect => sendingStep c s (.manager ⟨env, .tx node payload⟩) = s.apply effect := by
  have hevent : sendingStep c s (.manager ⟨env, .tx node payload⟩) = occasionStep c s ⟨env, .tx node payload⟩ := if_pos h
  have hmanager : step c s.manager ⟨env, .tx node payload⟩ = receivedTx c env s.manager node payload :=
    if_neg (by simp [(running_iff.1 h).2])
  rw [hevent, occasionStep, hmanager, receivedTx_eq]
  cases hnew : transactionNewIn env.room payload with
  | none =>
    obtain ⟨failure, herror⟩ :=
      @tx_of_none c _ PendingResult.toSendTxOnResult _ _ hnew node s.manager.activeNode s.sends
    rw [herror]
    simp [readsEntries, hnew, Sending.running, NodeManager.abort]
  | some transaction =>
    rw [tx_of_some hnew]
    cases hentries : s.manager.sendTxOnResults with
    | nil => simp [readsEntries, hentries, Sending.sends, Sending.entries, Sending.apply, txEffect]
    | cons entry entries =>
      cases hreleased : s.released with
      | true => simp [readsEntries, hentries, hnew, hreleased, Sending.sends, Sending.entries, Sending.fail, Sending.running]
      | false =>
        simp [readsEntries, tracksEntries, hentries, hnew, hreleased, (running_iff.1 h).2, Sending.sends, Sending.entries,
          Sending.apply, txEffect]

theorem sendingStep_tx_running (h : s.running = true) (env : Surroundings) (node : BitcoinSpoon.Node) (payload : Data) :
    (sendingStep c s (.manager ⟨env, .tx node payload⟩)).running = true ↔
      (transactionNewIn env.room payload).isSome = true ∧ (s.released = true → s.entries = []) := by
  refine Iff.trans ?_ (@tx_ok_iff c _ PendingResult.toSendTxOnResult env.room node s.manager.activeNode s.sends payload)
  have hstep := @sendingStep_tx c s h env node payload
  cases hresult : tx c PendingResult.toSendTxOnResult env.room node s.manager.activeNode s.sends payload with
  | error failure =>
    rw [hresult] at hstep
    simp [hstep]
  | ok effect =>
    rw [hresult] at hstep
    dsimp only at hstep
    rw [hstep]
    exact iff_of_true (running_iff.2 (running_iff.1 h)) ⟨effect, rfl⟩

/-- In every state of the process, for every payload: the handler returns exactly if no proper
    prefix of the payload is a whole transaction, the lists that the counts ask for have room, and
    no pending entry has been released. -/
theorem tx_finishes_iff (c : Crypto) {s : Sending} (h : s.running = true) (env : Surroundings) (node : BitcoinSpoon.Node)
    (payload : Data) :
    (sendingStep c s (.manager ⟨env, .tx node payload⟩)).running = true ↔
      (¬ ∃ trans p rest, IsWhole trans p ∧ rest ≠ [] ∧ payload.toBytes = p ++ rest) ∧
        (∀ trans, transactionNew payload = some trans → env.room.holds trans = true) ∧
          (s.released = true → s.entries = []) := by
  rw [sendingStep_tx_running h, transactionNewIn_isSome_iff, and_assoc]

/-- An empty transaction arrives while a send waits. -/
theorem tx_finishes_oneSent :
    oneSent.running = true ∧
      (sendingStep plainCrypto oneSent (.manager ⟨oneNode, .tx ⟨1, none⟩ (some (List.replicate 10 0))⟩)).running = true :=
  ⟨rfl, (tx_finishes_iff plainCrypto rfl oneNode ⟨1, none⟩ (some (List.replicate 10 0))).2
    ⟨fun hwhole => absurd ((transactionNew_eq_none_iff _).2 hwhole) (by decide),
      fun trans htrans => by cases htrans; decide, fun hreleased => by cases hreleased⟩⟩

/-- Eleven zero bytes: a transaction with no inputs and no outputs, and one byte more. -/
theorem not_tx_finishes :
    ¬ ∀ (c : Crypto) (s : Sending) (env : Surroundings) (node : BitcoinSpoon.Node) (payload : Data), s.running = true →
      (sendingStep c s (.manager ⟨env, .tx node payload⟩)).running = true := by
  intro h
  have hruns := h plainCrypto twoPeers oneNode ⟨1, none⟩ (some (List.replicate 11 0x00)) rfl
  have hparsed := ((sendingStep_tx_running rfl oneNode ⟨1, none⟩ _).1 hruns).1
  exact absurd hparsed (by decide)

/-! ## Two kinds of payloads that stop the process -/

/-- A count that no list can hold, whatever the machine. -/
theorem tx_counted (h : s.running = true) (env : Surroundings) (node : BitcoinSpoon.Node) (version : UInt32) {n : Nat}
    {p : Bytes} (hcount : IsVarInt n p) (hn : DATAS_LIMIT ≤ n) (rest : Bytes) :
    (sendingStep c s (.manager ⟨env, .tx node (some (uint32D version.toNat ++ (p ++ rest)))⟩)).running = false := by
  refine Bool.eq_false_iff.2 fun hruns => ?_
  have hparsed := ((sendingStep_tx_running h env node _).1 hruns).1
  rw [transactionNewIn_counted env.room version hcount hn rest] at hparsed
  cases hparsed

/-- Any payload does, if an entry is left by a `tx` before. -/
theorem tx_twice (env env' : Surroundings) (node node' : BitcoinSpoon.Node) (payload payload' : Data) (h : s.running = true)
    (hleft : (sendingStep c s (.manager ⟨env, .tx node payload⟩)).entries ≠ []) :
    (sendingStep c (sendingStep c s (.manager ⟨env, .tx node payload⟩)) (.manager ⟨env', .tx node' payload'⟩)).running = false := by
  have hstep := @sendingStep_tx c s h env node payload
  cases hresult : tx c PendingResult.toSendTxOnResult env.room node s.manager.activeNode s.sends payload with
  | error failure =>
    rw [hresult] at hstep
    dsimp only at hstep
    have hstopped : ∀ {s : Sending} {event : SendingEvent}, s.running = false → sendingStep c s event = s := by
      intro s event hs
      exact if_neg (by simp [hs])
    rw [hstopped hstep, hstep]
  | ok effect =>
    rw [hresult] at hstep
    dsimp only at hstep
    rw [hstep] at hleft ⊢
    have hrunning : (s.apply effect).running = true := running_iff.2 (running_iff.1 h)
    have hreleased : (s.apply effect).released = true := tx_releases hresult hleft
    refine Bool.eq_false_iff.2 fun hruns => ?_
    exact hleft (((sendingStep_tx_running hrunning env' node' payload').1 hruns).2 hreleased)

end BitcoinSpoon.Manager
