import Tortor.Core.AssemblerLaws

/-! What `classify_block` says of a block against what `add_block` does with it. -/

namespace Tortor.Core

open Tortor.Lib

namespace PieceAssembler

def NewlyCompletes (begin length : Nat) (a b : PieceAssembler) : Prop :=
  ∃ before block after, a.blocks = before ++ block :: after ∧ block.begin = begin ∧
    block.length = length ∧ block.completed = false ∧
    b.blocks = before ++ { block with completed := true } :: after

variable {a b : PieceAssembler}

theorem NewlyCompletes.ne {begin length : Nat} (h : NewlyCompletes begin length a b) : b ≠ a := by
  rintro rfl
  obtain ⟨before, block, after, hsplit, -, -, hnew, hmarked⟩ := h
  have hsame := List.append_cancel_left (hsplit.symm.trans hmarked)
  have hdone : block.completed = true := by rw [(List.cons.inj hsame).1]
  cases hnew.symm.trans hdone

@[simp] theorem call_expectedLength (a : PieceAssembler) (c : Call) :
    (a.call c).expectedLength = a.expectedLength := by
  cases c with
  | addBlock begin data =>
    rw [call, addBlock]
    split
    · rfl
    split
    · rfl
    split <;> rfl
  | nextRequest now timeout =>
    rw [call]
    split
    case h_1 request b hnext =>
      obtain ⟨answer, -, he⟩ := Option.map_eq_some_iff.mp hnext
      cases he
      rfl
    case h_2 => rfl
  | resetRequests => rfl

theorem Intact.call (h : a.Intact) (hsize : a.expectedLength < 2 ^ 32) (c : Call) :
    (a.call c).Intact := by
  cases c with
  | addBlock begin data =>
    have hcases := addBlock_cases hsize begin data
    rw [PieceAssembler.call]
    split at hcases
    · obtain ⟨text, heq⟩ := hcases
      rw [heq]
      exact h
    · rw [hcases]
      exact h
    · obtain ⟨hin, before, block, after, hsplit, rfl, hlength, hnew, hnext, -⟩ := hcases
      rw [hnext]
      exact h.write hsplit hlength hnew hin
  | nextRequest now timeout =>
    rw [PieceAssembler.call]
    split
    case h_1 request b hnext =>
      obtain ⟨⟨r, blocks⟩, hloop, he⟩ := Option.map_eq_some_iff.mp hnext
      cases he
      exact h.congr rfl rfl rfl (progress_nextRequestLoop hloop)
    case h_2 => exact h
  | resetRequests => exact h.congr rfl rfl rfl (progress_resetRequests a)

theorem intact_exec (index : Nat) {total : Nat} (hsize : total < 2 ^ 32) (calls : List Call) :
    (exec call (new index total) calls).Intact ∧
      (exec call (new index total) calls).expectedLength = total :=
  exec_invariant (P := fun a : PieceAssembler => a.Intact ∧ a.expectedLength = total)
    (fun a c h => ⟨h.1.call (h.2 ▸ hsize) c, (a.call_expectedLength c).trans h.2⟩) calls
    ⟨intact_new index total, rfl⟩

/-- After any calls the class of a block tells what becomes of it.  Where it is accepted, it fits
into the buffer and its bytes into the counter. -/
theorem classify_predicts_add (index total : Nat) (hsize : total < 2 ^ 32) (calls : List Call)
    (begin : Nat) (data : List UInt8) :
    let a := exec call (new index total) calls
    (a.classifyBlock begin data.length = .expectedNew ↔
      NewlyCompletes begin data.length a (a.addBlock begin data).2) ∧
    (a.classifyBlock begin data.length = .duplicate ↔ a.addBlock begin data = (.inProgress, a)) ∧
    (a.classifyBlock begin data.length = .unexpected ↔
      ∃ text, (a.addBlock begin data).1 = .error text) ∧
    (∀ text, (a.addBlock begin data).1 = .error text → (a.addBlock begin data).2 = a) ∧
    (a.classifyBlock begin data.length = .expectedNew →
      begin + data.length ≤ a.buffer.length ∧ a.receivedBytes + data.length < 2 ^ 32) := by
  intro a
  obtain ⟨hintact, htotal⟩ : a.Intact ∧ a.expectedLength = total := intact_exec index hsize calls
  have hlength : a.expectedLength < 2 ^ 32 := htotal ▸ hsize
  have hcases := addBlock_cases hlength begin data
  cases hclass : a.classifyBlock begin data.length with
  | unexpected =>
    rw [hclass] at hcases
    obtain ⟨text, heq⟩ := hcases
    rw [heq]
    exact ⟨⟨nofun, fun h => absurd rfl h.ne⟩, ⟨nofun, nofun⟩, ⟨fun _ => ⟨text, rfl⟩, fun _ => rfl⟩,
      fun _ _ => rfl, nofun⟩
  | duplicate =>
    rw [hclass] at hcases
    rw [hcases]
    exact ⟨⟨nofun, fun h => absurd rfl h.ne⟩, ⟨fun _ => rfl, fun _ => rfl⟩, ⟨nofun, nofun⟩, nofun,
      nofun⟩
  | expectedNew =>
    rw [hclass] at hcases
    obtain ⟨hin, before, block, after, hsplit, rfl, hblock, hnew, hnext, hanswer⟩ := hcases
    have hcompletes : NewlyCompletes block.begin data.length a (a.addBlock block.begin data).2 :=
      ⟨before, block, after, hsplit, rfl, hblock, hnew, by rw [hnext]⟩
    have hno (text : String) : (a.addBlock block.begin data).1 ≠ .error text := by
      rw [hanswer]
      split <;> nofun
    have hreceived : a.receivedBytes + data.length ≤ a.expectedLength := by
      have hwritten := (hintact.write hsplit hblock hnew hin).received_le
      exact hwritten
    refine ⟨iff_of_true rfl hcompletes, ⟨nofun, fun h => ?_⟩, ⟨nofun, fun ⟨text, h⟩ => ?_⟩,
      fun text h => absurd h (hno text), fun _ => ⟨hintact.buffer.symm ▸ hin, by omega⟩⟩
    · exact absurd (congrArg Prod.snd h) hcompletes.ne
    · exact absurd h (hno text)

theorem classify_predicts_add_short :
    NewlyCompletes 16384 1
      (exec call (new 7 16385) [.addBlock 0 (List.replicate 16384 1), .nextRequest 5 10])
      ((exec call (new 7 16385)
        [.addBlock 0 (List.replicate 16384 1), .nextRequest 5 10]).addBlock 16384 [9]).2 :=
  (classify_predicts_add 7 16385 (by decide)
    [.addBlock 0 (List.replicate 16384 1), .nextRequest 5 10] 16384 [9]).1.mp (by decide +kernel)

end PieceAssembler

end Tortor.Core
