import ThinBT.Session.Wire

namespace ThinBT

variable {id : UInt8} {body : List UInt8}

theorem field32_isSome : (field32 body off).isSome ↔ off + 4 ≤ body.length := by
  rw [field32, Option.isSome_map, Codec.sized_u32.isSome_iff, List.length_drop]
  omega

-- A handler that reads one field after another.
theorem bind_field32_isSome {f : UInt32 → Option (Option Msg)} (h : ∀ v, (f v).isSome ↔ P) :
    ((field32 body off).bind f).isSome ↔ off + 4 ≤ body.length ∧ P := by
  rw [← field32_isSome]
  cases field32 body off
  case none   => simp
  case some v => simp [h]

theorem sized_pexPeer : PexPeer.image.Sized 8 :=
  (Codec.sized_u32.prod (Codec.sized_u16.prod (Codec.sized_u8.prod Codec.sized_u8))).imap

-- The lengths that `handle_pex_msg` checks are those that it reads.
theorem decode_pex_isSome : (decode 9 body).isSome := by
  by_cases hl : body.length < 3
  case pos => simp [decode, hl]
  case neg =>
    obtain ⟨op, ho⟩ := Option.isSome_iff_exists.mp
      (Codec.sized_u8.total (show 1 ≤ body.length by omega))
    have hn := Codec.sized_u8.length_eq ho
    obtain ⟨count, hc⟩ := Option.isSome_iff_exists.mp
      (Codec.sized_u16.total (show 2 ≤ op.2.length by omega))
    have hm := Codec.sized_u16.length_eq hc
    simp only [decode, if_neg hl, ho, hc, Option.bind_eq_bind, Option.bind_some]
    split
    case isTrue => rfl
    case isFalse hp =>
      obtain ⟨peers, hr⟩ := Option.isSome_iff_exists.mp
        (sized_pexPeer.readN (show (ntoh16 count.1).toNat * 8 ≤ count.2.length by omega))
      rw [hr]
      rfl

-- How many bytes the handler of a message reads without checking the length of the body.
def neededLength (chokingPeer : Bool) : UInt8 → Nat
  | 4 => 4
  | 6 => if chokingPeer then 0 else 12
  | 8 => 8
  | _ => 0

theorem decode_isSome : (decode id body).isSome ↔ neededLength false id ≤ body.length := by
  have read (m : Msg) : (pure (some m) : Option (Option Msg)).isSome ↔ True :=
    iff_of_true rfl trivial
  unfold decode
  split
  case h_5 =>
    rw [Option.bind_eq_bind, bind_field32_isSome fun _ => read _, and_true]
    exact Iff.rfl
  case h_7 =>
    simp only [Option.bind_eq_bind]
    rw [bind_field32_isSome fun _ => bind_field32_isSome fun _ =>
      bind_field32_isSome fun _ => read _, and_true]
    change _ ↔ 12 ≤ _
    omega
  case h_8 =>
    refine iff_of_true ?_ (Nat.zero_le _)
    split
    case isTrue => rfl
    case isFalse =>
      simp only [Option.bind_eq_bind]
      rw [bind_field32_isSome fun _ => bind_field32_isSome fun _ => read _, and_true]
      omega
  case h_9 =>
    simp only [Option.bind_eq_bind]
    rw [bind_field32_isSome fun _ => bind_field32_isSome fun _ => read _, and_true]
    change _ ↔ 8 ≤ _
    omega
  case h_10 => exact iff_of_true decode_pex_isSome (Nat.zero_le _)
  case h_11 h₄ _ h₆ _ h₈ _ =>
    refine iff_of_true rfl (Eq.trans_le ?_ (Nat.zero_le _))
    unfold neededLength
    split
    case h_1 => exact absurd rfl h₄
    case h_2 => exact absurd rfl h₆
    case h_3 => exact absurd rfl h₈
    case h_4 => rfl
  all_goals exact iff_of_true rfl (Nat.zero_le _)

-- No handler reads behind the body exactly if the body of HAVE, CANCEL and of a REQUEST that is not
-- refused has its fields.
theorem dispatch_reads_inside_body_iff (chokingPeer : Bool) (id : UInt8) (body : List UInt8) :
    (dispatchBytes chokingPeer id body).isSome ↔ neededLength chokingPeer id ≤ body.length := by
  unfold dispatchBytes
  by_cases hr : id = P2PMsgId.request.toByte
  case neg =>
    rw [if_neg (fun h => hr h.left), decode_isSome]
    unfold neededLength
    split
    case h_2 => exact absurd rfl hr
    all_goals rfl
  case pos =>
    subst hr
    cases chokingPeer
    case false => rw [if_neg (fun h => Bool.false_ne_true h.right), decode_isSome]
    case true  => exact iff_of_true rfl (Nat.zero_le _)

-- A HAVE without a chunk index is accepted, and its handler reads from the null pointer.
theorem empty_have_reads_outside_body :
    readMessage [0, 0, 0, 1, 4] = some ((4, []), []) ∧ dispatchBytes false 4 [] = none := by
  decide +kernel

end ThinBT
