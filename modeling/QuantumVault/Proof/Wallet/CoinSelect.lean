import QuantumVault.Proof.Wallet.Signing
import QuantumVault.Wallet.CoinSelect

/-!
# Selections that balance

The loops add with saturation, but each of them runs only after a checked sum of everything on offer, so no partial sum ever saturates: the total that a loop counts is the exact sum of what it picked. Both wallet commands therefore leave over exactly what the outputs and the fee do not take, and the transaction they build pays the fee that was asked for. The generic selector checks every addition of its own.
-/

namespace QuantumVault

open Result HybridKem

def totalValue (picks : List Pick) : Nat := (picks.map fun pick => pick.value.toNat).sum

/-- The input spends the outpoint: this is what its text decodes to. -/
def Pick.Spends (pick : Pick) (op : OutPoint) : Prop :=
  Hex.decode pick.txId = .ok op.txId.bytes ∧ pick.outputIndex = op.index

/-- No two inputs spend the same outpoint. -/
def DistinctOutPoints (picks : List Pick) : Prop := picks.Pairwise fun a b => ∀ op, a.Spends op → ¬ b.Spends op

/-- The texts of the input can be read: those of an outpoint, and for a stealth output that of the secret its scan found. -/
def Pick.Readable (pick : Pick) : Prop :=
  (∃ op, pick.Spends op) ∧ ∀ u, pick = .stealth u → ∃ shared : Hash256, Hex.decode u.sharedSecretHex = .ok shared.bytes

/-- What is on offer is a word and covers the amount and the fee. -/
def Covers (candidates : List Pick) (amount fee : UInt64) : Prop :=
  amount.toNat + fee.toNat ≤ totalValue candidates ∧ totalValue candidates < 2 ^ 64

/-- The keys of a wallet. -/
def StealthKeys.Generated [HybridKem] [Signing] (keys : StealthKeys) : Prop :=
  ∃ kyberLevel level viewEntropy spendSeed, StealthKeys.generate kyberLevel level viewEntropy spendSeed = some keys

/-- The inputs are distinct ones of those on offer and add up to the amount, the fee and the change. -/
structure Selection.Balanced (selection : Selection) (candidates : List Pick) (amount fee : UInt64) : Prop where
  picked : selection.picks.Subperm candidates
  distinct : DistinctOutPoints selection.picks
  exact : totalValue selection.picks = amount.toNat + fee.toNat + selection.change.toNat

/-- What a selection is spent on: the amount, and the change if there is any. -/
def Selection.payments (selection : Selection) (amount : Amount) : List Amount :=
  amount :: if selection.change > 0 then [selection.change] else []

/-- The transaction spends the selected inputs, each once, on the amount and the change, and what it does not pay out of them is the fee. -/
structure Selection.PaysFee (selection : Selection) (amount fee : UInt64) (tx : Transaction) : Prop where
  inputs : List.Forall₂ Pick.Spends selection.picks tx.spends
  distinct : tx.spends.Nodup
  pays : tx.outputs.map TxOutput.value = selection.payments amount
  fee : totalValue selection.picks = (tx.outputs.map fun output => output.value.toNat).sum + fee.toNat

@[simp] theorem totalValue_nil : totalValue [] = 0 := rfl

@[simp] theorem totalValue_cons (pick : Pick) (picks : List Pick) :
    totalValue (pick :: picks) = pick.value.toNat + totalValue picks := rfl

@[simp] theorem totalValue_append (picks picks' : List Pick) :
    totalValue (picks ++ picks') = totalValue picks + totalValue picks' := by
  rw [totalValue, List.map_append, List.sum_append, ← totalValue, ← totalValue]

private theorem totalValue_perm {picks picks' : List Pick} (h : picks.Perm picks') : totalValue picks = totalValue picks' :=
  (h.map _).sum_eq

theorem DistinctOutPoints.subperm {picks picks' : List Pick} (h : DistinctOutPoints picks') (hsub : picks.Subperm picks') :
    DistinctOutPoints picks := by
  obtain ⟨middle, hperm, hsublist⟩ := hsub
  exact (hperm.pairwise_iff fun hab op hb ha => hab op ha hb).mp (h.sublist hsublist)

theorem sumValues_eq_ok {picks : List Pick} {sum : UInt64} : sumValues picks = .ok sum ↔ sum.toNat = totalValue picks := by
  rw [sumValues, okOr_eq_ok, Word.checkedSum_eq_some, List.map_map]
  rfl

/-! ### The loop -/

section Loop

variable {outflow total : UInt64} {picked queue : List Pick}

theorem pickUntil_append (queue' : List Pick) :
    pickUntil outflow picked total (queue ++ queue') =
      pickUntil outflow (pickUntil outflow picked total queue).1 (pickUntil outflow picked total queue).2 queue' := by
  induction queue generalizing picked total with
  | nil => rfl
  | cons u rest ih =>
      rw [List.cons_append, pickUntil, pickUntil]
      split
      · rename_i hcovered
        cases queue' with
        | nil => rfl
        | cons => exact (if_pos hcovered).symm
      · exact ih

/-- **A run of the loop** takes a front of the queue. As long as all the values together are a word, the total is exact, and the front ends where the outflow is covered. -/
theorem pickUntil_run (hfits : total.toNat + totalValue queue < 2 ^ 64) :
    ∃ taken rest, queue = taken ++ rest ∧ (pickUntil outflow picked total queue).1 = picked ++ taken ∧
      (pickUntil outflow picked total queue).2.toNat = total.toNat + totalValue taken ∧
      (rest ≠ [] → outflow ≤ (pickUntil outflow picked total queue).2) := by
  induction queue generalizing picked total with
  | nil => exact ⟨[], [], rfl, (List.append_nil picked).symm, rfl, fun h => absurd rfl h⟩
  | cons u rest ih =>
      rw [totalValue_cons] at hfits
      rw [pickUntil]
      split
      · rename_i hcovered
        exact ⟨[], u :: rest, rfl, (List.append_nil picked).symm, rfl, fun _ => hcovered⟩
      · have hstep : (Word.saturatingAdd total u.value).toNat = total.toNat + u.value.toNat := by
          rw [Word.toNat_saturatingAdd]
          omega
        obtain ⟨taken, left, hqueue, hpicked, htotal, hcovered⟩ :=
          @ih (Word.saturatingAdd total u.value) (picked ++ [u]) (by omega)
        refine ⟨u :: taken, left, by rw [hqueue]; rfl, ?_, ?_, hcovered⟩
        · rw [hpicked, List.append_assoc, List.singleton_append]
        · rw [htotal, hstep, totalValue_cons, Nat.add_assoc]

theorem pickUntil_balanced {candidates : List Pick} (hperm : queue.Perm candidates)
    (hfits : totalValue candidates < 2 ^ 64) (hcover : outflow.toNat ≤ totalValue candidates) :
    (pickUntil outflow [] 0 queue).1.Subperm candidates ∧ outflow ≤ (pickUntil outflow [] 0 queue).2 ∧
      (pickUntil outflow [] 0 queue).2.toNat = totalValue (pickUntil outflow [] 0 queue).1 := by
  have hsum := totalValue_perm hperm
  have hzero : (0 : UInt64).toNat = 0 := rfl
  obtain ⟨taken, rest, hqueue, hpicked, htotal, hcovered⟩ :=
    @pickUntil_run outflow 0 [] queue (by omega)
  rw [List.nil_append] at hpicked
  rw [hzero, Nat.zero_add] at htotal
  rw [hpicked]
  refine ⟨(List.Sublist.subperm (hqueue ▸ List.sublist_append_left taken rest)).trans hperm.subperm, ?_, htotal⟩
  rcases eq_or_ne rest [] with hnil | hne
  · -- everything was taken
    rw [hqueue, hnil, List.append_nil] at hsum
    exact UInt64.le_iff_toNat_le.mpr (by omega)
  · exact hcovered hne

end Loop

/-! ### The two commands -/

section Commands

variable {stealthUtxos : List StealthMatch} {plainUtxos : List P2pkhMatch} {amount fee : UInt64} {selection : Selection}

/-- What the commands do with an outflow, in their own order of the inputs: pick until it is covered, and keep the rest. -/
def selectionOf (outflow : UInt64) (queue : List Pick) : Selection :=
  ⟨(pickUntil outflow [] 0 queue).1, (pickUntil outflow [] 0 queue).2, (pickUntil outflow [] 0 queue).2 - outflow⟩

theorem perm_sortedByValue (picks : List Pick) : (sortedByValue picks).Perm picks := List.perm_insertionSort _ picks

theorem selectTransfer_eq_ok :
    selectTransfer stealthUtxos plainUtxos amount fee = .ok selection ↔ amount ≠ 0 ∧
      ∃ outflow : UInt64, outflow.toNat = amount.toNat + fee.toNat ∧
        outflow.toNat ≤ totalValue (stealthUtxos.map .stealth ++ plainUtxos.map .plain) ∧
        totalValue (stealthUtxos.map .stealth ++ plainUtxos.map .plain) < 2 ^ 64 ∧
        selectionOf outflow (sortedByValue (stealthUtxos.map .stealth) ++ sortedByValue (plainUtxos.map .plain)) =
          selection := by
  have hperm := (perm_sortedByValue (stealthUtxos.map .stealth)).append (perm_sortedByValue (plainUtxos.map .plain))
  unfold selectTransfer
  refine require_bind_eq_ok.trans (and_congr_right fun _ => okOr_bind_eq_ok.trans (exists_congr fun outflow =>
    and_congr Word.checkedAdd_eq_some ⟨fun h => ?_, fun h => ?_⟩))
  · obtain ⟨stealthSum, hstealth, h⟩ := bind_eq_ok.mp h
    obtain ⟨plainSum, hplain, h⟩ := bind_eq_ok.mp h
    obtain ⟨available, havailable, h⟩ := okOr_bind_eq_ok.mp h
    obtain ⟨hcover, h⟩ := require_bind_eq_ok.mp h
    obtain ⟨-, h⟩ := require_bind_eq_ok.mp h
    rw [sumValues_eq_ok] at hstealth hplain
    rw [Word.checkedAdd_eq_some] at havailable
    rw [UInt64.not_lt, UInt64.le_iff_toNat_le] at hcover
    have hlt := UInt64.toNat_lt available
    rw [totalValue_append, ← hstealth, ← hplain, ← havailable, selectionOf, pickUntil_append]
    exact ⟨hcover, hlt, pure_eq_ok.mp h⟩
  · obtain ⟨hcover, hfits, hselection⟩ := h
    obtain ⟨-, hcovered, -⟩ := pickUntil_balanced hperm hfits hcover
    rw [totalValue_append] at hcover hfits
    obtain ⟨stealthSum, hstealth⟩ := Word.exists_toNat_eq (n := totalValue (stealthUtxos.map .stealth)) (by omega)
    obtain ⟨plainSum, hplain⟩ := Word.exists_toNat_eq (n := totalValue (plainUtxos.map .plain)) (by omega)
    obtain ⟨available, havailable⟩ := Word.exists_toNat_eq hfits
    rw [pickUntil_append] at hcovered
    rw [selectionOf, pickUntil_append] at hselection
    refine bind_eq_ok.mpr ⟨stealthSum, sumValues_eq_ok.mpr hstealth, bind_eq_ok.mpr ⟨plainSum, sumValues_eq_ok.mpr hplain,
      okOr_bind_eq_ok.mpr ⟨available, Word.checkedAdd_eq_some.mpr (by omega), require_bind_eq_ok.mpr ⟨?_, ?_⟩⟩⟩⟩
    · rw [UInt64.not_lt, UInt64.le_iff_toNat_le]
      omega
    · exact require_bind_eq_ok.mpr ⟨UInt64.not_lt.mpr hcovered, pure_eq_ok.mpr hselection⟩

theorem selectDrip_eq_ok :
    selectDrip plainUtxos amount fee = .ok selection ↔ amount ≠ 0 ∧
      ∃ outflow : UInt64, outflow.toNat = amount.toNat + fee.toNat ∧
        outflow.toNat ≤ totalValue (plainUtxos.map .plain) ∧ totalValue (plainUtxos.map .plain) < 2 ^ 64 ∧
        selectionOf outflow (sortedByValue (plainUtxos.map .plain)) = selection := by
  have hperm := perm_sortedByValue (plainUtxos.map .plain)
  have hrest {outflow : UInt64} (hle : outflow ≤ (pickUntil outflow [] 0 (sortedByValue (plainUtxos.map .plain))).2) :
      selectionOf outflow (sortedByValue (plainUtxos.map .plain)) =
        ⟨(pickUntil outflow [] 0 (sortedByValue (plainUtxos.map .plain))).1,
          (pickUntil outflow [] 0 (sortedByValue (plainUtxos.map .plain))).2,
          Word.saturatingSub (pickUntil outflow [] 0 (sortedByValue (plainUtxos.map .plain))).2 outflow⟩ := by
    rw [selectionOf, Word.saturatingSub, if_pos hle]
  unfold selectDrip
  refine require_bind_eq_ok.trans (and_congr_right fun _ => okOr_bind_eq_ok.trans (exists_congr fun outflow =>
    and_congr Word.checkedAdd_eq_some ⟨fun h => ?_, fun h => ?_⟩))
  · obtain ⟨total, htotal, h⟩ := bind_eq_ok.mp h
    obtain ⟨hcover, h⟩ := require_bind_eq_ok.mp h
    obtain ⟨hcovered, h⟩ := require_bind_eq_ok.mp h
    rw [sumValues_eq_ok] at htotal
    rw [UInt64.not_lt, UInt64.le_iff_toNat_le] at hcover
    have hlt := UInt64.toNat_lt total
    rw [← htotal, hrest (UInt64.not_lt.mp hcovered)]
    exact ⟨hcover, hlt, pure_eq_ok.mp h⟩
  · obtain ⟨hcover, hfits, hselection⟩ := h
    obtain ⟨-, hcovered, -⟩ := pickUntil_balanced hperm hfits hcover
    obtain ⟨total, htotal⟩ := Word.exists_toNat_eq hfits
    rw [hrest hcovered] at hselection
    refine bind_eq_ok.mpr ⟨total, sumValues_eq_ok.mpr htotal, require_bind_eq_ok.mpr ⟨?_, ?_⟩⟩
    · rw [UInt64.not_lt, UInt64.le_iff_toNat_le]
      omega
    · exact require_bind_eq_ok.mpr ⟨UInt64.not_lt.mpr hcovered, pure_eq_ok.mpr hselection⟩

theorem balanced_selectionOf {outflow : UInt64} {queue candidates : List Pick} (hperm : queue.Perm candidates)
    (hdistinct : DistinctOutPoints candidates) (houtflow : outflow.toNat = amount.toNat + fee.toNat)
    (hcover : outflow.toNat ≤ totalValue candidates) (hfits : totalValue candidates < 2 ^ 64) :
    (selectionOf outflow queue).Balanced candidates amount fee := by
  obtain ⟨hsubperm, hcovered, htotal⟩ := pickUntil_balanced hperm hfits hcover
  have hle := UInt64.le_iff_toNat_le.mp hcovered
  refine ⟨hsubperm, hdistinct.subperm hsubperm, ?_⟩
  rw [selectionOf, ← htotal, UInt64.toNat_sub_of_le _ _ hcovered]
  omega

end Commands

/-! ### The transaction -/

section Transactions

variable {picks : List Pick} {ops : List OutPoint} {hexError : Hex.FromHexError → SpendError} {sizeError : SpendError}

theorem readOutPoint_eq_ok {pick : Pick} {op : OutPoint} :
    pick.readOutPoint hexError sizeError = .ok op ↔ pick.Spends op := by
  unfold Pick.readOutPoint
  refine ⟨fun h => ?_, fun h => ?_⟩
  · obtain ⟨bytes, hdecode, h⟩ := bind_eq_ok.mp h
    obtain ⟨txId, hsize, h⟩ := okOr_bind_eq_ok.mp h
    rw [mapError_eq_ok] at hdecode
    cases pure_eq_ok.mp h
    exact ⟨hdecode.trans (congrArg Except.ok (Hash256.ofBytes_eq_some.mp hsize)), rfl⟩
  · obtain ⟨hdecode, hindex⟩ := h
    refine bind_eq_ok.mpr ⟨_, mapError_eq_ok.mpr hdecode, okOr_bind_eq_ok.mpr ⟨op.txId, ?_, pure_eq_ok.mpr ?_⟩⟩
    · exact Hash256.ofBytes_eq_some.mpr rfl
    · rw [hindex]

theorem DistinctOutPoints.nodup (h : DistinctOutPoints picks) (hspends : List.Forall₂ Pick.Spends picks ops) : ops.Nodup := by
  induction hspends with
  | nil => exact List.nodup_nil
  | @cons pick op picks ops hpick hrest ih =>
      obtain ⟨hfirst, hothers⟩ := List.pairwise_cons.mp h
      refine List.nodup_cons.mpr ⟨fun hmem => ?_, ih hothers⟩
      obtain ⟨i, hi, rfl⟩ := List.getElem_of_mem hmem
      have hlt : i < picks.length := hrest.length_eq ▸ hi
      exact hfirst _ (List.getElem_mem hlt) _ hpick (hrest.get hlt hi)

private theorem foldlM_addInput_run {builder builder' : TxBuilder}
    (h : picks.foldlM (fun builder pick => do
      let op ← pick.readOutPoint hexError sizeError
      return builder.addInput ⟨op, []⟩) builder = .ok builder') :
    ∃ ops, List.Forall₂ Pick.Spends picks ops ∧
      builder'.inputs.map TxInput.prevOutput = builder.inputs.map TxInput.prevOutput ++ ops ∧
      builder'.outputs = builder.outputs := by
  induction picks generalizing builder with
  | nil =>
      cases pure_eq_ok.mp h
      exact ⟨[], .nil, (List.append_nil _).symm, rfl⟩
  | cons pick picks ih =>
      obtain ⟨mid, hstep, hrest⟩ := foldlM_cons_eq_ok.mp h
      obtain ⟨op, hop, hmid⟩ := bind_eq_ok.mp hstep
      cases pure_eq_ok.mp hmid
      obtain ⟨ops, hspends, hinputs, houtputs⟩ := ih hrest
      refine ⟨op :: ops, .cons (readOutPoint_eq_ok.mp hop) hspends, ?_, houtputs⟩
      rw [hinputs, TxBuilder.addInput, List.map_append, List.append_assoc]
      rfl

theorem addPicks_eq_ok {builder : TxBuilder} (h : addPicks (Pick.readOutPoint hexError sizeError) picks = .ok builder) :
    List.Forall₂ Pick.Spends picks (builder.inputs.map TxInput.prevOutput) ∧ builder.outputs = [] := by
  obtain ⟨ops, hspends, hinputs, houtputs⟩ := foldlM_addInput_run h
  rw [TxBuilder.new, List.map_nil, List.nil_append] at hinputs
  exact ⟨hinputs ▸ hspends, houtputs⟩

def TxBuilder.paid (builder : TxBuilder) : List Amount := builder.outputs.map TxOutput.value

theorem TxBuilder.paid_addOutput (builder : TxBuilder) (output : TxOutput) :
    (builder.addOutput output).paid = builder.paid ++ [output.value] := by
  rw [paid, addOutput, List.map_append, ← paid]
  rfl

private theorem Selection.sum_payments (selection : Selection) (amount : Amount) :
    ((selection.payments amount).map UInt64.toNat).sum = amount.toNat + selection.change.toNat := by
  unfold payments
  split
  · rfl
  · rename_i hzero
    have hchange : selection.change.toNat = 0 := Nat.eq_zero_of_not_pos hzero
    rw [hchange]
    rfl

theorem Selection.Balanced.paysFee {selection : Selection} {candidates : List Pick} {amount fee : UInt64}
    (h : selection.Balanced candidates amount fee) {funded signed : TxBuilder} {tx : Transaction}
    (hspends : List.Forall₂ Pick.Spends selection.picks (funded.inputs.map TxInput.prevOutput))
    (hpaid : funded.paid = selection.payments amount) (hbody : TxBuilder.SameBody funded signed)
    (hbuild : signed.buildUnsigned.mapError SpendError.wallet = .ok tx) : selection.PaysFee amount fee tx := by
  obtain ⟨-, rfl⟩ := TxBuilder.buildUnsigned_eq_ok.mp (mapError_eq_ok.mp hbuild)
  have hinputs := hbody.prevOutputs ▸ hspends
  have hpays : signed.outputs.map TxOutput.value = selection.payments amount := by
    rw [hbody.outputs]
    exact hpaid
  refine ⟨hinputs, h.distinct.nodup hinputs, hpays, ?_⟩
  have hexact := h.exact
  have hsum := selection.sum_payments amount
  rw [← hpays, List.map_map] at hsum
  show _ = (signed.outputs.map (UInt64.toNat ∘ TxOutput.value)).sum + fee.toNat
  omega

variable [Crypto] [HybridKem] [Signing]

omit [Signing] in
theorem TxBuilder.addStealthOutput_paid {builder funded : TxBuilder} {value : Amount} {recipient : StealthAddress}
    {entropy : KemEntropy} {ss : Hash256} (h : builder.addStealthOutput value recipient entropy = .ok (funded, ss)) :
    funded.inputs = builder.inputs ∧ funded.paid = builder.paid ++ [value] := by
  obtain ⟨made, -, rfl⟩ := addStealthOutput_eq_ok.mp h
  exact ⟨rfl, paid_addOutput builder _⟩

omit [Signing] in
/-- The front of both commands: the inputs, and the payment as the first output. -/
private theorem TxBuilder.paying_of_addPicks {bare paying : TxBuilder} {amount : Amount} {recipient : StealthAddress}
    {entropy : KemEntropy} {ss : Hash256} (hbare : addPicks (Pick.readOutPoint hexError sizeError) picks = .ok bare)
    (hpaying : bare.addStealthOutput amount recipient entropy = .ok (paying, ss)) :
    List.Forall₂ Pick.Spends picks (paying.inputs.map TxInput.prevOutput) ∧ paying.paid = [amount] := by
  obtain ⟨hspends, hnone⟩ := addPicks_eq_ok hbare
  obtain ⟨hinputs, hpaid⟩ := addStealthOutput_paid hpaying
  have hbarePaid : bare.paid = [] := by rw [paid, hnone]; rfl
  rw [hbarePaid, List.nil_append] at hpaid
  exact ⟨hinputs ▸ hspends, hpaid⟩

omit [HybridKem] in
theorem TxBuilder.sameBody_signInput {kind : String} {witnessOf : Bytes → List ScriptBuilder.Call}
    {builder builder' : TxBuilder} {inputIdx : Nat} {level : DilithiumLevel} {secretKey : Bytes}
    (h : signInput kind witnessOf builder inputIdx level secretKey = .ok builder') : SameBody builder builder' := by
  obtain ⟨-, -, h⟩ := okOr_bind_eq_ok.mp h
  obtain ⟨tx, -, h⟩ := bind_eq_ok.mp h
  obtain ⟨signature, -, h⟩ := bind_eq_ok.mp h
  obtain ⟨input, hinput, h⟩ := okOr_bind_eq_ok.mp h
  cases pure_eq_ok.mp h
  exact sameBody_set hinput _

omit [HybridKem] in
private theorem signPick_sameBody {stealth : StealthKeys} {builder builder' : TxBuilder} {idx : Nat} {pick : Pick}
    (h : signPick stealth builder idx pick = .ok builder') : TxBuilder.SameBody builder builder' := by
  cases pick with
  | plain u => exact TxBuilder.sameBody_signInput (mapError_eq_ok.mp h)
  | stealth u =>
      obtain ⟨_, -, h⟩ := bind_eq_ok.mp h
      obtain ⟨shared, -, h⟩ := okOr_bind_eq_ok.mp h
      exact TxBuilder.sameBody_signInput (mapError_eq_ok.mp h)

omit [Crypto] [HybridKem] [Signing] in
theorem TxBuilder.sameBody_foldlM {ι : Type} {step : TxBuilder → ι → Except SpendError TxBuilder} {xs : List ι}
    {builder builder' : TxBuilder} (hstep : ∀ b x b', step b x = .ok b' → SameBody b b')
    (h : xs.foldlM step builder = .ok builder') : SameBody builder builder' := by
  exact foldlM_invariant (SameBody builder) (fun b x b' _ hb hx => hb.trans (hstep b x b' hx)) (.refl builder) h

private theorem cmdSendStealth_paysFee {stealth : StealthKeys} {recipient : StealthAddress} {stealthUtxos : List StealthMatch}
    {plainUtxos : List P2pkhMatch} {amount fee : UInt64} {entropy changeEntropy : KemEntropy} {selection : Selection}
    {candidates : List Pick} (hselect : selectTransfer stealthUtxos plainUtxos amount fee = .ok selection)
    (hbalanced : selection.Balanced candidates amount fee) {tx : Transaction}
    (h : cmdSendStealth stealth recipient stealthUtxos plainUtxos amount fee entropy changeEntropy = .ok tx) :
    selection.PaysFee amount fee tx := by
  unfold cmdSendStealth at h
  rw [hselect, ok_bind] at h
  obtain ⟨bare, hbare, h⟩ := bind_eq_ok.mp h
  obtain ⟨⟨paying, ss⟩, hpaying, h⟩ := bind_eq_ok.mp h
  obtain ⟨⟨funded, ss'⟩, hfunded, h⟩ := bind_eq_ok.mp h
  obtain ⟨signed, hsigned, hbuild⟩ := bind_eq_ok.mp h
  obtain ⟨hspends, hpaid⟩ := TxBuilder.paying_of_addPicks hbare (mapError_eq_ok.mp hpaying)
  have hfundedPaid : funded.inputs = paying.inputs ∧ funded.paid = selection.payments amount := by
    unfold Selection.payments
    split at hfunded
    · rename_i hchange
      rw [if_pos hchange]
      have hadded := TxBuilder.addStealthOutput_paid (mapError_eq_ok.mp hfunded)
      exact ⟨hadded.1, hadded.2.trans (by rw [hpaid]; rfl)⟩
    · rename_i hzero
      cases pure_eq_ok.mp hfunded
      rw [if_neg hzero]
      exact ⟨rfl, hpaid⟩
  refine hbalanced.paysFee ?_ hfundedPaid.2 (TxBuilder.sameBody_foldlM (fun _ _ _ => signPick_sameBody) hsigned) hbuild
  rw [hfundedPaid.1]
  exact hspends

private theorem drip_paysFee {spendLevel : DilithiumLevel} {spendKp : PqcKeyPair} {recipient : StealthAddress}
    {plain : List P2pkhMatch} {amount fee : UInt64} {entropy : KemEntropy} {selection : Selection}
    {candidates : List Pick} (hselect : selectDrip plain amount fee = .ok selection)
    (hbalanced : selection.Balanced candidates amount fee) {tx : Transaction}
    (h : drip spendLevel spendKp recipient plain amount fee entropy = .ok tx) : selection.PaysFee amount fee tx := by
  unfold drip at h
  rw [hselect, ok_bind] at h
  obtain ⟨bare, hbare, h⟩ := bind_eq_ok.mp h
  obtain ⟨⟨paying, ss⟩, hpaying, h⟩ := bind_eq_ok.mp h
  obtain ⟨signed, hsigned, hbuild⟩ := bind_eq_ok.mp h
  obtain ⟨hspends, hpaid⟩ := TxBuilder.paying_of_addPicks hbare (mapError_eq_ok.mp hpaying)
  have hbody := TxBuilder.sameBody_foldlM (fun _ _ _ hstep => TxBuilder.sameBody_signInput (mapError_eq_ok.mp hstep)) hsigned
  refine hbalanced.paysFee ?_ ?_ hbody hbuild
  · split
    · exact hspends
    · exact hspends
  · unfold Selection.payments
    split
    · rw [TxBuilder.paid_addOutput, hpaid]
      rfl
    · exact hpaid

/-! ### Commands that succeed -/

omit [Crypto] [HybridKem] [Signing] in
theorem addPicks_total (hread : ∀ pick ∈ picks, pick.Readable) :
    ∃ builder, addPicks (Pick.readOutPoint hexError sizeError) picks = .ok builder := by
  unfold addPicks
  refine (foldlM_total (fun _ => True) (fun builder pick hpick _ => ?_) trivial).imp fun _ hrun => hrun.1
  obtain ⟨op, hop⟩ := (hread pick hpick).1
  exact ⟨_, bind_eq_ok.mpr ⟨op, readOutPoint_eq_ok.mpr hop, rfl⟩, trivial⟩

omit [Signing] [HybridKem] [Crypto] in
theorem Selection.Balanced.picks_ne_nil {selection : Selection} {candidates : List Pick} {amount fee : UInt64}
    (h : selection.Balanced candidates amount fee) (hamount : amount ≠ 0) : selection.picks ≠ [] := by
  intro hnil
  have hexact := h.exact
  rw [hnil, totalValue_nil] at hexact
  exact hamount (UInt64.toNat_inj.mp (by rw [UInt64.toNat_zero]; omega))

omit [Crypto] [HybridKem] [Signing] in
/-- What can be signed step by step can be built in the end. -/
theorem TxBuilder.signing_total {ι : Type} {step : TxBuilder → ι → Except SpendError TxBuilder} {xs : List ι}
    {funded : TxBuilder} (hspends : List.Forall₂ Pick.Spends picks (funded.inputs.map TxInput.prevOutput))
    (hpicks : picks ≠ []) (hpaid : funded.paid ≠ [])
    (hstep : funded.inputs.length = picks.length → ∀ tx builder x, funded.buildUnsigned = .ok tx → x ∈ xs →
      SameBody funded builder → ∃ signed, step builder x = .ok signed ∧ SameBody funded signed) :
    ∃ signed tx, xs.foldlM step funded = .ok signed ∧ signed.buildUnsigned = .ok tx := by
  have hcount : funded.inputs.length = picks.length := by rw [hspends.length_eq, List.length_map]
  have hinputs : funded.inputs ≠ [] := List.length_pos_iff.mp (hcount ▸ List.length_pos_iff.mpr hpicks)
  have houtputs : funded.outputs ≠ [] := fun hnil => hpaid (by rw [paid, hnil]; rfl)
  have hbuild : funded.buildUnsigned = .ok _ := buildUnsigned_eq_ok.mpr ⟨⟨hinputs, houtputs⟩, rfl⟩
  obtain ⟨signed, hsigned, hbody⟩ := foldlM_total (SameBody funded) (fun builder x hx => hstep hcount _ builder x hbuild hx) (.refl funded)
  obtain ⟨tx, htx, -, -⟩ := hbody.buildUnsigned hbuild
  exact ⟨signed, tx, hsigned, htx⟩

private theorem signPick_total (hsigning : SigningCorrect) {keys : StealthKeys} (hkeys : keys.Generated)
    {builder builder' : TxBuilder}
    {tx : Transaction} (hbuild : builder.buildUnsigned = .ok tx) (hbody : TxBuilder.SameBody builder builder') {idx : Nat}
    (hlt : idx < builder.inputs.length) {pick : Pick} (hread : pick.Readable) :
    ∃ signed, signPick keys builder' idx pick = .ok signed ∧ TxBuilder.SameBody builder signed := by
  obtain ⟨_, _, _, seed, hgenerated⟩ := hkeys
  have hkp := (StealthKeys.generate_eq_some hgenerated).2
  cases pick with
  | plain u =>
      obtain ⟨signed, hsign, hsame⟩ :=
        TxBuilder.sign_total (.plain keys.spendLevel keys.spendKp) hsigning hkp hbuild hbody hlt
      exact ⟨signed, mapError_eq_ok.mpr hsign, hsame⟩
  | stealth u =>
      obtain ⟨shared, hshared⟩ := hread.2 u rfl
      obtain ⟨signed, hsign, hsame⟩ :=
        TxBuilder.sign_total (.stealth keys.spendLevel keys.spendKp shared) hsigning hkp hbuild hbody hlt
      refine ⟨signed, ?_, hsame⟩
      refine bind_eq_ok.mpr ⟨shared.bytes, mapError_eq_ok.mpr hshared, okOr_bind_eq_ok.mpr ⟨shared, ?_, mapError_eq_ok.mpr hsign⟩⟩
      exact Hash256.ofBytes_eq_some.mpr rfl

theorem TxBuilder.addStealthOutput_total (hkem : KemCorrect) {keys : StealthKeys} (hkeys : keys.Generated)
    (builder : TxBuilder) (value : Amount) (entropy : KemEntropy) :
    ∃ funded ss, builder.addStealthOutput value keys.address entropy = .ok (funded, ss) := by
  obtain ⟨_, _, _, _, hgenerated⟩ := hkeys
  obtain ⟨funded, ss, _, _, hadded, -⟩ := addStealthOutput_found hkem hgenerated builder value entropy
  exact ⟨funded, ss, hadded⟩

private theorem cmdSendStealth_total (hkem : KemCorrect) (hsigning : SigningCorrect) {keys recipient : StealthKeys}
    (hkeys : keys.Generated) (hrecipient : recipient.Generated) {stealthUtxos : List StealthMatch}
    {plainUtxos : List P2pkhMatch} {amount fee : UInt64} (entropy changeEntropy : KemEntropy) {selection : Selection}
    (hselect : selectTransfer stealthUtxos plainUtxos amount fee = .ok selection) (hpicks : selection.picks ≠ [])
    (hread : ∀ pick ∈ selection.picks, pick.Readable) :
    ∃ tx, cmdSendStealth keys recipient.address stealthUtxos plainUtxos amount fee entropy changeEntropy = .ok tx := by
  obtain ⟨bare, hbare⟩ := addPicks_total hread
  obtain ⟨paying, ss, hpaying⟩ := TxBuilder.addStealthOutput_total hkem hrecipient bare amount entropy
  obtain ⟨hspends, hpaid⟩ := TxBuilder.paying_of_addPicks hbare hpaying
  have hfunded : ∃ funded ss',
      (if selection.change > 0 then
        (paying.addStealthOutput selection.change keys.address changeEntropy).mapError SpendError.wallet
      else pure (paying, ss)) = .ok (funded, ss') ∧ funded.inputs = paying.inputs ∧ funded.paid ≠ [] := by
    split
    · obtain ⟨funded, ss', hadded⟩ := TxBuilder.addStealthOutput_total hkem hkeys paying selection.change changeEntropy
      obtain ⟨hinputs', hpaid'⟩ := TxBuilder.addStealthOutput_paid hadded
      exact ⟨funded, ss', mapError_eq_ok.mpr hadded, hinputs', by simp [hpaid']⟩
    · exact ⟨paying, ss, rfl, rfl, by simp [hpaid]⟩
  obtain ⟨funded, ss', hfunded, hinputs, hfundedPaid⟩ := hfunded
  have hsigns : ∃ signed tx,
      selection.picks.zipIdx.foldlM (fun builder pick => signPick keys builder pick.2 pick.1) funded = .ok signed ∧
        signed.buildUnsigned = .ok tx := by
    refine TxBuilder.signing_total (hinputs ▸ hspends) hpicks hfundedPaid fun hcount tx builder pick hbuild hpick hbody => ?_
    exact signPick_total hsigning hkeys hbuild hbody (hcount ▸ List.snd_lt_of_mem_zipIdx hpick)
      (hread _ (List.fst_mem_of_mem_zipIdx hpick))
  obtain ⟨signed, tx, hsigned, htx⟩ := hsigns
  refine ⟨tx, bind_eq_ok.mpr ⟨selection, hselect, bind_eq_ok.mpr ⟨bare, hbare, ?_⟩⟩⟩
  refine bind_eq_ok.mpr ⟨_, mapError_eq_ok.mpr hpaying, bind_eq_ok.mpr ⟨_, hfunded, ?_⟩⟩
  exact bind_eq_ok.mpr ⟨signed, hsigned, mapError_eq_ok.mpr htx⟩

private theorem drip_total (hkem : KemCorrect) (hsigning : SigningCorrect) {spendLevel : DilithiumLevel} {spendKp : PqcKeyPair}
    {seed : Hash256} (hkp : fromSeedPqc spendLevel seed = some spendKp) {recipient : StealthKeys}
    (hrecipient : recipient.Generated) {plain : List P2pkhMatch} {amount fee : UInt64} (entropy : KemEntropy)
    {selection : Selection} (hselect : selectDrip plain amount fee = .ok selection) (hpicks : selection.picks ≠ [])
    (hread : ∀ pick ∈ selection.picks, pick.Readable) :
    ∃ tx, drip spendLevel spendKp recipient.address plain amount fee entropy = .ok tx := by
  obtain ⟨bare, hbare⟩ := addPicks_total hread
  obtain ⟨paying, ss, hpaying⟩ := TxBuilder.addStealthOutput_total hkem hrecipient bare amount entropy
  obtain ⟨hspends, hpaid⟩ := TxBuilder.paying_of_addPicks hbare hpaying
  let change : TxOutput := .new selection.change (p2pkhPqc (sha3_256 spendKp.publicKey))
  let funded := if selection.change > 0 then paying.addOutput change else paying
  have hfunded : funded.inputs = paying.inputs ∧ funded.paid ≠ [] := by
    by_cases hchange : selection.change > 0
    · rw [show funded = paying.addOutput change from if_pos hchange, TxBuilder.paid_addOutput]
      exact ⟨rfl, by simp⟩
    · rw [show funded = paying from if_neg hchange, hpaid]
      exact ⟨rfl, by simp⟩
  obtain ⟨hinputs, hfundedPaid⟩ := hfunded
  have hsigns : ∃ signed tx, (List.range selection.picks.length).foldlM (fun builder idx =>
      (builder.signPlainInput idx spendLevel spendKp.secretKey spendKp.publicKey).mapError SpendError.wallet) funded =
        .ok signed ∧ signed.buildUnsigned = .ok tx := by
    refine TxBuilder.signing_total (hinputs ▸ hspends) hpicks hfundedPaid fun hcount tx builder idx hbuild hidx hbody => ?_
    obtain ⟨signed, hsign, hsame⟩ := TxBuilder.sign_total (.plain spendLevel spendKp) hsigning hkp hbuild hbody
      (hcount ▸ List.mem_range.mp hidx)
    exact ⟨signed, mapError_eq_ok.mpr hsign, hsame⟩
  obtain ⟨signed, tx, hsigned, htx⟩ := hsigns
  refine ⟨tx, bind_eq_ok.mpr ⟨selection, hselect, bind_eq_ok.mpr ⟨bare, hbare, ?_⟩⟩⟩
  refine bind_eq_ok.mpr ⟨_, mapError_eq_ok.mpr hpaying, ?_⟩
  exact bind_eq_ok.mpr ⟨signed, hsigned, mapError_eq_ok.mpr htx⟩

end Transactions

/-! ### The generic selector -/

namespace CoinSelector

/-- **A run of the selector** takes a front of the entries, and its total is exact. -/
theorem selectFrom_run {target total : Amount} {selected : List OutPoint} {entries : List (OutPoint × Amount)}
    {selection : CoinSelection} (h : selectFrom target selected total entries = .ok selection) :
    ∃ taken rest change, entries = taken ++ rest ∧ selection.selected = selected ++ taken.map Prod.fst ∧
      selection.total.toNat = total.toNat + (taken.map fun entry => entry.2.toNat).sum ∧
      selection.change = some change ∧ selection.total.toNat = target.toNat + change.toNat ∧ 1000 ≤ change.toNat := by
  induction entries generalizing selected total with
  | nil => cases h
  | cons entry entries ih =>
      obtain ⟨total', htotal, h⟩ := okOr_bind_eq_ok.mp h
      obtain ⟨needed, hneeded, h⟩ := okOr_bind_eq_ok.mp h
      rw [Word.checkedAdd_eq_some] at htotal hneeded
      have hreserve : reserve.toNat = 1000 := rfl
      split at h
      · rename_i henough
        have hle := UInt64.le_iff_toNat_le.mp henough
        cases pure_eq_ok.mp h
        obtain ⟨change, hchange⟩ := Word.exists_toNat_eq (n := total'.toNat - target.toNat)
          (lt_of_le_of_lt (Nat.sub_le _ _) (UInt64.toNat_lt total'))
        refine ⟨[entry], entries, change, rfl, rfl, ?_, Word.checkedSub_eq_some.mpr (by omega), by dsimp only; omega, by omega⟩
        rw [List.map_singleton, List.sum_singleton]
        exact htotal
      · obtain ⟨taken, rest, change, hentries, hselected, hsum, hchange, hbalance, hkept⟩ := ih h
        refine ⟨entry :: taken, rest, change, by rw [hentries]; rfl, ?_, ?_, hchange, hbalance, hkept⟩
        · rw [hselected, List.append_assoc]
          rfl
        · rw [hsum, htotal, List.map_cons, List.sum_cons, Nat.add_assoc]

def valueAt (self : CoinSelector) (ops : List OutPoint) : Nat := (ops.map fun op => (self.utxos.getD op 0).toNat).sum

private theorem select_balanced {self : CoinSelector} {target : Amount} {selection : CoinSelection}
    (h : self.select target = .ok selection) :
    selection.selected.Nodup ∧ (∀ op ∈ selection.selected, op ∈ self.utxos) ∧
      selection.total.toNat = self.valueAt selection.selected ∧
      ∃ change, selection.change = some change ∧ selection.total.toNat = target.toNat + change.toNat ∧
        1000 ≤ change.toNat := by
  obtain ⟨-, h⟩ := require_bind_eq_ok.mp h
  obtain ⟨taken, rest, change, hentries, hselected, hsum, hchange, hbalance, hkept⟩ := selectFrom_run h
  rw [List.nil_append] at hselected
  have hsublist : taken.Sublist self.utxos.toList := hentries ▸ List.sublist_append_left taken rest
  have hvalue : ∀ entry ∈ taken, self.utxos[entry.1]? = some entry.2 := fun entry hmem =>
    Std.ExtTreeMap.mem_toList_iff_getElem?_eq_some.mp (hsublist.subset hmem)
  refine ⟨hselected ▸ (TreeMap.nodup_keys_toList self.utxos).sublist (hsublist.map _), fun op hop => ?_, ?_,
    change, hchange, hbalance, hkept⟩
  · rw [hselected] at hop
    obtain ⟨entry, hmem, rfl⟩ := List.mem_map.mp hop
    exact Std.ExtTreeMap.mem_iff_isSome_getElem?.mpr (by rw [hvalue entry hmem]; rfl)
  · have hzero : (0 : UInt64).toNat = 0 := rfl
    rw [hsum, hzero, Nat.zero_add, valueAt, hselected, List.map_map]
    refine congrArg List.sum (List.map_congr_left fun entry hmem => ?_)
    rw [Function.comp_apply, Std.ExtTreeMap.getD_eq_getD_getElem?, hvalue entry hmem]
    rfl

end CoinSelector

/-! ### All of it -/

section Balance

variable {stealthUtxos : List StealthMatch} {plainUtxos : List P2pkhMatch} {amount fee : UInt64} {selection : Selection}

theorem exists_selectTransfer (hamount : amount ≠ 0) :
    (∃ selection, selectTransfer stealthUtxos plainUtxos amount fee = .ok selection) ↔
      Covers (stealthUtxos.map .stealth ++ plainUtxos.map .plain) amount fee := by
  refine ⟨fun h => ?_, fun h => ?_⟩
  · obtain ⟨_, h⟩ := h
    obtain ⟨-, outflow, houtflow, hcover, hfits, -⟩ := selectTransfer_eq_ok.mp h
    exact ⟨houtflow ▸ hcover, hfits⟩
  · obtain ⟨hcover, hfits⟩ := h
    obtain ⟨outflow, houtflow⟩ := Word.exists_toNat_eq (lt_of_le_of_lt hcover hfits)
    exact ⟨_, selectTransfer_eq_ok.mpr ⟨hamount, outflow, houtflow, houtflow ▸ hcover, hfits, rfl⟩⟩

theorem exists_selectDrip (hamount : amount ≠ 0) :
    (∃ selection, selectDrip plainUtxos amount fee = .ok selection) ↔ Covers (plainUtxos.map .plain) amount fee := by
  refine ⟨fun h => ?_, fun h => ?_⟩
  · obtain ⟨_, h⟩ := h
    obtain ⟨-, outflow, houtflow, hcover, hfits, -⟩ := selectDrip_eq_ok.mp h
    exact ⟨houtflow ▸ hcover, hfits⟩
  · obtain ⟨hcover, hfits⟩ := h
    obtain ⟨outflow, houtflow⟩ := Word.exists_toNat_eq (lt_of_le_of_lt hcover hfits)
    exact ⟨_, selectDrip_eq_ok.mpr ⟨hamount, outflow, houtflow, houtflow ▸ hcover, hfits, rfl⟩⟩

theorem balanced_of_selectTransfer (hdistinct : DistinctOutPoints (stealthUtxos.map .stealth ++ plainUtxos.map .plain))
    (hselect : selectTransfer stealthUtxos plainUtxos amount fee = .ok selection) :
    selection.Balanced (stealthUtxos.map .stealth ++ plainUtxos.map .plain) amount fee := by
  obtain ⟨-, outflow, houtflow, hcover, hfits, rfl⟩ := selectTransfer_eq_ok.mp hselect
  exact balanced_selectionOf ((perm_sortedByValue (stealthUtxos.map .stealth)).append
    (perm_sortedByValue (plainUtxos.map .plain))) hdistinct houtflow hcover hfits

theorem balanced_of_selectDrip (hdistinct : DistinctOutPoints (plainUtxos.map .plain))
    (hselect : selectDrip plainUtxos amount fee = .ok selection) :
    selection.Balanced (plainUtxos.map .plain) amount fee := by
  obtain ⟨-, outflow, houtflow, hcover, hfits, rfl⟩ := selectDrip_eq_ok.mp hselect
  exact balanced_selectionOf (perm_sortedByValue (plainUtxos.map .plain)) hdistinct houtflow hcover hfits

end Balance

/-- **Coin selection balances exactly.** A transfer or a drip finds its inputs exactly when everything on offer is a word and covers the amount and the fee. With keys and texts in order it then returns a transaction, which spends these inputs on the amount and the change and pays the fee. -/
theorem coinSelection_balanced [Crypto] [HybridKem] [Signing] (stealthUtxos : List StealthMatch)
    (plainUtxos : List P2pkhMatch) (amount fee : UInt64) (hamount : 1 ≤ amount)
    (hdistinct : DistinctOutPoints (stealthUtxos.map .stealth ++ plainUtxos.map .plain)) :
    ((∃ selection, selectTransfer stealthUtxos plainUtxos amount fee = .ok selection) ↔
      Covers (stealthUtxos.map .stealth ++ plainUtxos.map .plain) amount fee) ∧
    (∀ selection, selectTransfer stealthUtxos plainUtxos amount fee = .ok selection →
      selection.Balanced (stealthUtxos.map .stealth ++ plainUtxos.map .plain) amount fee ∧
        ∀ stealth recipient entropy changeEntropy tx,
          cmdSendStealth stealth recipient stealthUtxos plainUtxos amount fee entropy changeEntropy = .ok tx →
            selection.PaysFee amount fee tx) ∧
    ((∃ selection, selectDrip plainUtxos amount fee = .ok selection) ↔ Covers (plainUtxos.map .plain) amount fee) ∧
    (∀ selection, selectDrip plainUtxos amount fee = .ok selection →
      selection.Balanced (plainUtxos.map .plain) amount fee ∧
        ∀ spendLevel spendKp recipient entropy tx,
          drip spendLevel spendKp recipient plainUtxos amount fee entropy = .ok tx → selection.PaysFee amount fee tx) ∧
    (KemCorrect → SigningCorrect → ∀ (keys recipient : StealthKeys) (spendLevel : DilithiumLevel) (seed : Hash256)
      (spendKp : PqcKeyPair) (entropy changeEntropy : KemEntropy), keys.Generated → recipient.Generated →
      fromSeedPqc spendLevel seed = some spendKp →
      (∀ pick ∈ stealthUtxos.map Pick.stealth ++ plainUtxos.map .plain, pick.Readable) →
        ((∃ tx, cmdSendStealth keys recipient.address stealthUtxos plainUtxos amount fee entropy changeEntropy = .ok tx) ↔
          Covers (stealthUtxos.map .stealth ++ plainUtxos.map .plain) amount fee) ∧
        ((∃ tx, drip spendLevel spendKp recipient.address plainUtxos amount fee entropy = .ok tx) ↔
          Covers (plainUtxos.map .plain) amount fee)) ∧
    ∀ (selector : CoinSelector) (target : Amount) selection, selector.select target = .ok selection →
      selection.selected.Nodup ∧ selection.total.toNat = selector.valueAt selection.selected ∧
        ∃ change, selection.change = some change ∧ selection.total.toNat = target.toNat + change.toNat ∧
          1000 ≤ change.toNat := by
  have hpositive : amount ≠ 0 := by
    rintro rfl
    exact absurd hamount (by decide)
  have hplain : DistinctOutPoints (plainUtxos.map .plain) := hdistinct.subperm (List.sublist_append_right _ _).subperm
  refine ⟨exists_selectTransfer hpositive, fun selection hselect => ?_, exists_selectDrip hpositive, fun selection hselect => ?_,
    fun hkem hsigning keys recipient spendLevel seed spendKp entropy changeEntropy hkeys hrecipient hkp hread => ⟨?_, ?_⟩,
    fun selector target selection hselect => ?_⟩
  · have hbalanced := balanced_of_selectTransfer hdistinct hselect
    exact ⟨hbalanced, fun _ _ _ _ _ => cmdSendStealth_paysFee hselect hbalanced⟩
  · have hbalanced := balanced_of_selectDrip hplain hselect
    exact ⟨hbalanced, fun _ _ _ _ _ => drip_paysFee hselect hbalanced⟩
  · rw [← exists_selectTransfer hpositive]
    refine ⟨fun h => ?_, fun h => ?_⟩
    · obtain ⟨tx, htx⟩ := h
      obtain ⟨selection, hselect, -⟩ := bind_eq_ok.mp htx
      exact ⟨selection, hselect⟩
    · obtain ⟨selection, hselect⟩ := h
      have hbalanced := balanced_of_selectTransfer hdistinct hselect
      exact cmdSendStealth_total hkem hsigning hkeys hrecipient entropy changeEntropy hselect
        (hbalanced.picks_ne_nil hpositive) fun pick hpick => hread pick (hbalanced.picked.subset hpick)
  · rw [← exists_selectDrip hpositive]
    refine ⟨fun h => ?_, fun h => ?_⟩
    · obtain ⟨tx, htx⟩ := h
      obtain ⟨selection, hselect, -⟩ := bind_eq_ok.mp htx
      exact ⟨selection, hselect⟩
    · obtain ⟨selection, hselect⟩ := h
      have hbalanced := balanced_of_selectDrip hplain hselect
      exact drip_total hkem hsigning hkp hrecipient entropy hselect (hbalanced.picks_ne_nil hpositive)
        fun pick hpick => hread pick (List.mem_append_right _ (hbalanced.picked.subset hpick))
  · obtain ⟨hnodup, -, hrest⟩ := CoinSelector.select_balanced hselect
    exact ⟨hnodup, hrest⟩

/-! ### A transfer of two inputs -/

def sampleStealthMatch : StealthMatch := ⟨Hex.encode (repeatedByte 1).bytes, 0, 5, Hex.encode (repeatedByte 2).bytes⟩

def samplePlainMatch : P2pkhMatch := ⟨Hex.encode (repeatedByte 1).bytes, 1, 7⟩

theorem selectTransfer_sample : selectTransfer [sampleStealthMatch] [samplePlainMatch] 4 3 =
    .ok ⟨[.stealth sampleStealthMatch, .plain samplePlainMatch], 12, 5⟩ := by
  decide +kernel

private theorem readable_sample : ∀ pick ∈ [Pick.stealth sampleStealthMatch, .plain samplePlainMatch], pick.Readable := by
  have htxId : Hex.decode (Hex.encode (repeatedByte 1).bytes) = .ok (repeatedByte 1).bytes := Hex.decode_encode _
  simp only [List.forall_mem_cons]
  refine ⟨⟨⟨⟨repeatedByte 1, 0⟩, htxId, rfl⟩, ?_⟩, ⟨⟨⟨repeatedByte 1, 1⟩, htxId, rfl⟩, ?_⟩, List.forall_mem_nil _⟩
  · rintro u ⟨⟩
    exact ⟨repeatedByte 2, Hex.decode_encode _⟩
  · rintro u ⟨⟩

/-- A payment of four with a fee of three needs both: the transfer pays four to the recipient and five back. -/
theorem coinSelection_balanced_sample : ∃ (_ : Crypto) (_ : HybridKem) (_ : Signing) (keys recipient : StealthKeys)
    (entropy changeEntropy : KemEntropy) (selection : Selection) (tx : Transaction),
    selectTransfer [sampleStealthMatch] [samplePlainMatch] 4 3 = .ok selection ∧
      cmdSendStealth keys recipient.address [sampleStealthMatch] [samplePlainMatch] 4 3 entropy changeEntropy = .ok tx ∧
      tx.outputs.map TxOutput.value = [4, 5] ∧ selection.PaysFee 4 3 tx := by
  let crypto := signingCrypto
  let signing := sampleSigning
  let kem := sampleKem
  have hdistinct : DistinctOutPoints [.stealth sampleStealthMatch, .plain samplePlainMatch] := by
    refine List.pairwise_pair.mpr fun op hstealth hplain => ?_
    exact absurd (hstealth.2.trans hplain.2.symm) (by decide)
  obtain ⟨kp, hkp⟩ := exists_fromSeedPqc signingCorrect_sample .level2 .zero
  let entropy : KemEntropy := ⟨.zero, []⟩
  let keys : StealthKeys := ⟨generateKeypair .level1 entropy, .level2, kp⟩
  have hkeys : keys.Generated := by
    refine ⟨.level1, .level2, entropy, .zero, ?_⟩
    rw [StealthKeys.generate, hkp]
    rfl
  obtain ⟨-, hbalanced, -, -, hbuilds, -⟩ := @coinSelection_balanced signingCrypto sampleKem sampleSigning
    [sampleStealthMatch] [samplePlainMatch] 4 3 (by decide) hdistinct
  obtain ⟨hsends, -⟩ := hbuilds kemCorrect_sample signingCorrect_sample keys keys .level2 .zero kp entropy entropy hkeys hkeys
    hkp readable_sample
  obtain ⟨tx, htx⟩ := hsends.mpr ⟨by decide, by decide⟩
  have hpays := (hbalanced _ selectTransfer_sample).2 keys keys.address entropy entropy tx htx
  exact ⟨crypto, kem, signing, keys, keys, entropy, entropy, _, tx, selectTransfer_sample, htx, hpays.pays, hpays⟩

end QuantumVault
