import Radare.Io.Rap

namespace Radare

open Framework

theorem leNat_be (n v : Nat) (rest : List Ut8) :
    leNat (((leBytes n v).reverse ++ rest).take n).reverse = v % 256 ^ n := by
  have hlength : (leBytes n v).reverse.length = n := by rw [List.length_reverse, leBytes_length]
  rw [List.take_left' hlength, List.reverse_reverse, leNat_leBytes]

theorem rReadBe32_rWriteBe32 (val : Ut32) (rest : List Ut8) : rReadBe32 (rWriteBe32 val ++ rest) = val := by
  apply BitVec.eq_of_toNat_eq
  rw [rReadBe32, rWriteBe32, leNat_be, BitVec.toNat_ofNat]
  have := val.isLt
  omega

theorem rReadBe64_rWriteBe64 (val : Ut64) (rest : List Ut8) : rReadBe64 (rWriteBe64 val ++ rest) = val := by
  apply BitVec.eq_of_toNat_eq
  rw [rReadBe64, rWriteBe64, leNat_be, BitVec.toNat_ofNat]
  have := val.isLt
  omega

theorem rReadBe32_reply (val : Ut32) : rReadBe32 (rWriteBe32 val) = val := by
  have h := rReadBe32_rWriteBe32 val []
  rwa [List.append_nil] at h

theorem rReadBe64_reply (val : Ut64) : rReadBe64 (rWriteBe64 val) = val := by
  have h := rReadBe64_rWriteBe64 val []
  rwa [List.append_nil] at h

theorem length_rWriteBe32 (val : Ut32) : (rWriteBe32 val).length = 4 := by simp [rWriteBe32, leBytes_length]

theorem length_rWriteBe64 (val : Ut64) : (rWriteBe64 val).length = 8 := by simp [rWriteBe64, leBytes_length]

theorem clipCount_eq {i : Int} (hlow : 0 ≤ i) (hhigh : i ≤ 4096) : clipCount i = i.toNat := by
  rw [clipCount, if_neg (by omega)]

theorem length_head_count (c : Ut8) (count : Ut32) : (c :: rWriteBe32 count).length = 5 := by
  rw [List.length_cons, length_rWriteBe32]

theorem store_count (c : Ut8) (t : List Ut8) (count : Ut32) :
    overwrite (c :: t) 1 (rWriteBe32 count) = c :: (rWriteBe32 count ++ t.drop 4) :=
  overwrite_append [c] t rfl (length_rWriteBe32 count)

theorem store_data (c : Ut8) (t data : List Ut8) (count : Ut32) :
    overwrite (c :: (rWriteBe32 count ++ t.drop 4)) 5 data =
      c :: (rWriteBe32 count ++ (data ++ t.drop (4 + data.length))) := by
  rw [← List.drop_drop]
  exact overwrite_append (c :: rWriteBe32 count) (t.drop 4) (length_head_count c count) rfl

section Server

variable {υ : Type} (u : RapUser υ) {t : List Ut8} (ht : t.length = 4127) (user : υ)
include ht

theorem rapServeRead_moves (count : Ut32) (hlow : 0 ≤ count.toInt) (hhigh : count.toInt ≤ 4096) :
    ∃ buf : List Ut8, buf.length = 4128 ∧ Proc.Moves (rapServe u) (rapServeRead u ⟨0x02 :: t, user⟩)
      (rWriteBe32 count) [] (rSocketRapServerContinue u ⟨buf, (u.read user count.toInt.toNat).1⟩) []
      (0x82 :: (rWriteBe32 count ++ (u.read user count.toInt.toNat).2)) := by
  have hfills := u.fills user count.toInt.toNat
  rcases hread : u.read user count.toInt.toNat with ⟨user', data⟩
  rw [hread] at hfills
  simp only at hfills ⊢
  have hclip : clipCount count.toInt = count.toInt.toNat := clipCount_eq hlow hhigh
  have hreply : (0x82 :: (rWriteBe32 count ++ (data ++ t.drop (4 + data.length)))).take (count.toInt.toNat + 5) =
      0x82 :: (rWriteBe32 count ++ data) :=
    take_append_front (0x82 :: rWriteBe32 count) data _ (by rw [length_head_count, hfills, Nat.add_comm])
  refine ⟨0x82 :: (rWriteBe32 count ++ (data ++ t.drop (4 + data.length))), ?_, ?_⟩
  · simp only [List.length_cons, List.length_append, length_rWriteBe32, List.length_drop]
    omega
  · simp only [rapServeRead, Proc.take_bind, Proc.put_bind]
    refine Proc.answer_moves (r := some ⟨0x82 :: (rWriteBe32 count ++ (data ++ t.drop (4 + data.length))), user'⟩)
      (length_rWriteBe32 count) ?_ rfl
    simp only [store_count, List.drop_succ_cons, List.drop_zero, rReadBe32_rWriteBe32, hclip, hread, store_data,
      overwrite_head, hreply]
    rfl

theorem rapServeWrite_moves {data : List Ut8} (hdata : data.length ≤ 4096) :
    ∃ buf : List Ut8, buf.length = 4128 ∧ Proc.Moves (rapServe u) (rapServeWrite u ⟨0x03 :: t, user⟩)
      (rWriteBe32 (BitVec.ofNat 32 data.length) ++ data) []
      (rSocketRapServerContinue u ⟨buf, (u.write user data).1⟩) [] (0x83 :: rWriteBe32 (u.write user data).2) := by
  rcases hwrite : u.write user data with ⟨user', ret⟩
  simp only
  obtain ⟨count, hcount⟩ : ∃ count : Ut32, count = BitVec.ofNat 32 data.length := ⟨_, rfl⟩
  have hlength : clipCount count.toInt = data.length := by
    have hint : count.toInt = data.length := by
      rw [hcount, BitVec.toInt_eq_toNat_cond, BitVec.toNat_ofNat]
      split <;> omega
    rw [clipCount_eq (by omega) (by omega), hint, Int.toNat_natCast]
  rw [← hcount]
  have hwindow : window (0x03 :: (rWriteBe32 count ++ (data ++ t.drop (4 + data.length)))) 5 data.length = data :=
    window_append (0x03 :: rWriteBe32 count) data _ (length_head_count 0x03 count)
  have hret : overwrite (0x03 :: (rWriteBe32 count ++ (data ++ t.drop (4 + data.length)))) 1 (rWriteBe32 ret) =
      0x03 :: (rWriteBe32 ret ++ (data ++ t.drop (4 + data.length))) := by
    have h := overwrite_append [0x03] (rWriteBe32 count ++ (data ++ t.drop (4 + data.length))) rfl (length_rWriteBe32 ret)
    rwa [List.drop_left' (length_rWriteBe32 count)] at h
  have hreply : (0x83 :: (rWriteBe32 ret ++ (data ++ t.drop (4 + data.length)))).take 5 = 0x83 :: rWriteBe32 ret :=
    take_append_front [0x83] (rWriteBe32 ret) _ (by rw [length_rWriteBe32]; rfl)
  refine ⟨0x83 :: (rWriteBe32 ret ++ (data ++ t.drop (4 + data.length))), ?_, ?_⟩
  · simp only [List.length_cons, List.length_append, length_rWriteBe32, List.length_drop]
    omega
  · simp only [rapServeWrite, Proc.take_bind, Proc.put_bind]
    refine (Proc.recv_moves (length_rWriteBe32 count) _ data []).trans ?_
    simp only [store_count, List.drop_succ_cons, List.drop_zero, rReadBe32_rWriteBe32, hlength]
    refine Proc.answer_moves (r := some ⟨0x83 :: (rWriteBe32 ret ++ (data ++ t.drop (4 + data.length))), user'⟩)
      rfl ?_ rfl
    simp only [store_data, hwindow, hwrite, hret, overwrite_head, hreply]
    rfl

theorem rapServeSeek_moves (whence : Ut8) (offset : Ut64) :
    ∃ buf : List Ut8, buf.length = 4128 ∧ Proc.Moves (rapServe u) (rapServeSeek u ⟨0x04 :: t, user⟩)
      (whence :: rWriteBe64 offset) [] (rSocketRapServerContinue u ⟨buf, (u.seek user offset whence.toNat).1⟩) []
      (0x84 :: rWriteBe64 ((u.seek user offset whence.toNat).2.signExtend 64)) := by
  rcases hseek : u.seek user offset whence.toNat with ⟨user', ret⟩
  simp only
  have hlength : (whence :: rWriteBe64 offset).length = 9 := by rw [List.length_cons, length_rWriteBe64]
  have hargs : overwrite (0x04 :: t) 1 (whence :: rWriteBe64 offset) =
      0x04 :: whence :: (rWriteBe64 offset ++ t.drop 9) :=
    overwrite_append [0x04] t rfl hlength
  obtain ⟨rest, hrest⟩ : ∃ rest, rest = (whence :: (rWriteBe64 offset ++ t.drop 9)).drop 8 := ⟨_, rfl⟩
  have hret : overwrite (0x84 :: whence :: (rWriteBe64 offset ++ t.drop 9)) 1 (rWriteBe64 (ret.signExtend 64)) =
      0x84 :: (rWriteBe64 (ret.signExtend 64) ++ rest) := by
    rw [hrest]
    exact overwrite_append [0x84] (whence :: (rWriteBe64 offset ++ t.drop 9)) rfl (length_rWriteBe64 _)
  have hreply : (0x84 :: (rWriteBe64 (ret.signExtend 64) ++ rest)).take 9 = 0x84 :: rWriteBe64 (ret.signExtend 64) :=
    take_append_front [0x84] (rWriteBe64 (ret.signExtend 64)) rest (by rw [length_rWriteBe64]; rfl)
  refine ⟨0x84 :: (rWriteBe64 (ret.signExtend 64) ++ rest), ?_, ?_⟩
  · rw [hrest]
    simp only [List.length_cons, List.length_append, length_rWriteBe64, List.length_drop]
    omega
  · simp only [rapServeSeek, Proc.take_bind, Proc.put_bind]
    refine Proc.answer_moves (r := some ⟨0x84 :: (rWriteBe64 (ret.signExtend 64) ++ rest), user'⟩) hlength ?_ rfl
    simp only [hargs, List.getD_cons_succ, List.getD_cons_zero, List.drop_succ_cons, List.drop_zero,
      rReadBe64_rWriteBe64, hseek, overwrite_head, hret, hreply]
    rfl

end Server

section Client

variable {υ ρ : Type} (u : RapUser υ)

variable {s : RSocketRapServer υ} (hbuf : s.buf.length = 4128) (f : RapReply → Proc Ut8 ρ)

theorem continue_moves (s : RSocketRapServer υ) (c : Ut8) (rest : List Ut8) :
    Proc.Moves (rapServe u) (rSocketRapServerContinue u s) (c :: rest) []
      (rapDispatch u ⟨c :: s.buf.drop 1, s.user⟩) rest [] := by
  have hstore : overwrite s.buf 0 [c] = c :: s.buf.drop 1 := overwrite_append [] s.buf rfl rfl
  rw [← hstore]
  exact Proc.recv_moves (rfl : [c].length = 1) _ rest []

theorem call_lseek (user : υ) (offset : Ut64) (whence : Int) : u.call user (.lseek offset whence) =
    ((u.seek user offset (BitVec.ofInt 8 whence).toNat).1,
      .offset ((u.seek user offset (BitVec.ofInt 8 whence).toNat).2.signExtend 64)) := rfl

include hbuf

theorem rapLseek_leads (offset : Ut64) (whence : Int) : ∃ buf : List Ut8, buf.length = 4128 ∧
    Talk.Leads (rapServe u) ⟨rapCall (.lseek offset whence) >>= f, rSocketRapServerContinue u s, [], []⟩
      ⟨f (u.call s.user (.lseek offset whence)).2,
        rSocketRapServerContinue u ⟨buf, (u.call s.user (.lseek offset whence)).1⟩, [], []⟩ := by
  have ht : (s.buf.drop 1).length = 4127 := by rw [List.length_drop, hbuf]
  obtain ⟨buf, hlength, hserver⟩ := rapServeSeek_moves u ht s.user (BitVec.ofInt 8 whence) offset
  refine ⟨buf, hlength, ?_⟩
  rw [call_lseek]
  obtain ⟨reply, hreply⟩ : ∃ reply, reply = (u.seek s.user offset (BitVec.ofInt 8 whence).toNat).2.signExtend 64 :=
    ⟨_, rfl⟩
  rw [← hreply] at hserver ⊢
  simp only [rapCall, rapLseek, Proc.put_bind, Proc.take_bind, Proc.send_bind, Proc.recv_bind]
  apply Talk.exchange ((continue_moves u s 0x04 _).trans hserver)
  have hlength : (0x84 :: rWriteBe64 reply).length = 9 := by rw [List.length_cons, length_rWriteBe64]
  apply Proc.recv_reply_moves hlength
  simp [length_rWriteBe64, rReadBe64_reply]

theorem rapRead_leads {count : Int} (hlow : 0 ≤ count) : ∃ buf : List Ut8, buf.length = 4128 ∧
    Talk.Leads (rapServe u) ⟨rapCall (.read count) >>= f, rSocketRapServerContinue u s, [], []⟩
      ⟨f (u.call s.user (.read count)).2,
        rSocketRapServerContinue u ⟨buf, (u.call s.user (.read count)).1⟩, [], []⟩ := by
  have ht : (s.buf.drop 1).length = 4127 := by rw [List.length_drop, hbuf]
  obtain ⟨n, hn⟩ : ∃ n, n = if count > 4096 then 4096 else count := ⟨_, rfl⟩
  have hrange : 0 ≤ n ∧ n ≤ 4096 := by
    rw [hn]
    split <;> omega
  have hint : (BitVec.ofInt 32 n).toInt = n := by
    rw [BitVec.toInt_ofInt, Int.bmod_eq_of_le (by omega) (by omega)]
  obtain ⟨buf, hlength, hserver⟩ := rapServeRead_moves u ht s.user (BitVec.ofInt 32 n) (by omega) (by omega)
  rw [hint] at hserver
  refine ⟨buf, hlength, ?_⟩
  have hcall : u.call s.user (.read count) = ((u.read s.user n.toNat).1, .read n (u.read s.user n.toNat).2) := by
    rw [hn]
    rfl
  rw [hcall]
  simp only [rapCall, rapRead, Proc.put_bind, Proc.take_bind, Proc.send_bind, Proc.recv_bind, ← hn]
  apply Talk.exchange ((continue_moves u s 0x02 _).trans hserver)
  have hlength : (0x82 :: rWriteBe32 (BitVec.ofInt 32 n)).length = 5 := length_head_count _ _
  refine (Proc.recv_moves hlength _ (u.read s.user n.toNat).2 []).trans ?_
  have hright : ¬((0x82 :: rWriteBe32 (BitVec.ofInt 32 n)).length ≠ 5 ∨
      (0x82 :: rWriteBe32 (BitVec.ofInt 32 n)).head? ≠ some 0x82) := by
    simp [length_rWriteBe32]
  simp only [if_neg hright, List.drop_succ_cons, List.drop_zero, rReadBe32_reply, hint, gt_iff_lt, lt_irrefl, if_false]
  exact Proc.recv_all_moves (u.fills s.user n.toNat) _ []

/-- Where fewer bytes of the reply are there than it has, the call fails and the rest of it stays in the stream. -/
theorem rapWrite_arrived_leads {data : List Ut8} (hdata : data ≠ []) {arrived : Nat} (harrived : arrived ≤ 5) :
    ∃ buf : List Ut8, buf.length = 4128 ∧
      Talk.Leads (rapServe u) ⟨rapCall (.write data arrived) >>= f, rSocketRapServerContinue u s, [], []⟩
        ⟨f (if arrived = 5 then (u.call s.user (.write data arrived)).2 else .wrote (-1)),
          rSocketRapServerContinue u ⟨buf, (u.call s.user (.write data arrived)).1⟩, [],
          (0x83 :: rWriteBe32 (u.write s.user (data.take 4096)).2).drop arrived⟩ := by
  have ht : (s.buf.drop 1).length = 4127 := by rw [List.length_drop, hbuf]
  obtain ⟨sent, hsent⟩ : ∃ sent, sent = data.take 4096 := ⟨_, rfl⟩
  have hcount : (if data.length > 4096 then 4096 else data.length) = sent.length := by
    rw [hsent, List.length_take]
    split <;> omega
  have htake : data.take sent.length = sent := by
    rw [hsent, List.length_take, List.take_eq_take_iff]
    omega
  have hsmall : sent.length ≤ 4096 := by
    rw [hsent, List.length_take]
    omega
  obtain ⟨buf, hlength, hserver⟩ := rapServeWrite_moves u ht s.user hsmall
  refine ⟨buf, hlength, ?_⟩
  have hcall : u.call s.user (.write data arrived) = ((u.write s.user sent).1,
      .wrote (if (u.write s.user sent).2 = 0 then -1 else (u.write s.user sent).2.toInt)) := by
    rw [hsent, RapUser.call, if_neg hdata]
  rw [hcall, ← hsent]
  obtain ⟨ret, hret⟩ : ∃ ret, ret = (u.write s.user sent).2 := ⟨_, rfl⟩
  rw [← hret] at hserver ⊢
  have hpos : ¬data.length < 1 := by
    have := List.length_pos_iff.mpr hdata
    omega
  simp only [rapCall, rapWrite, if_neg hpos, hcount, htake, Proc.put_bind, Proc.take_bind, Proc.send_bind,
    Proc.recv_bind]
  apply Talk.exchange ((continue_moves u s 0x03 _).trans hserver)
  have hreply : (0x83 :: rWriteBe32 ret).length = 5 := length_head_count _ _
  apply Proc.recv_part_moves (by rw [hreply]; exact harrived)
  have hzero : ret.toInt = 0 ↔ ret = 0 := by
    rw [← BitVec.toInt_inj]
    rfl
  by_cases hall : arrived = 5
  · rw [if_pos hall, hall, List.take_of_length_le hreply.le, if_neg (not_not.mpr hreply), List.drop_succ_cons,
      List.drop_zero, rReadBe32_reply]
    by_cases hz : ret = 0
    · rw [if_pos (hzero.mpr hz), if_pos hz]
      rfl
    · rw [if_neg (mt hzero.mp hz), if_neg hz]
      rfl
  · have hshort : ((0x83 :: rWriteBe32 ret).take arrived).length ≠ 5 := by
      rw [List.length_take, hreply]
      omega
    rw [if_neg hall, if_pos hshort]
    rfl

theorem rapWrite_leads (data : List Ut8) : ∃ buf : List Ut8, buf.length = 4128 ∧
    Talk.Leads (rapServe u) ⟨rapCall (.write data 5) >>= f, rSocketRapServerContinue u s, [], []⟩
      ⟨f (u.call s.user (.write data 5)).2,
        rSocketRapServerContinue u ⟨buf, (u.call s.user (.write data 5)).1⟩, [], []⟩ := by
  by_cases hempty : data = []
  · subst hempty
    exact ⟨s.buf, hbuf, .refl⟩
  · obtain ⟨buf, hlength, hleads⟩ := rapWrite_arrived_leads u hbuf f hempty (Nat.le_refl 5)
    rw [if_pos rfl, List.drop_eq_nil_of_le (length_head_count _ _).le] at hleads
    exact ⟨buf, hlength, hleads⟩

theorem rapCall_leads {call : RapCall} (hfits : call.Fits) : ∃ buf : List Ut8, buf.length = 4128 ∧
    Talk.Leads (rapServe u) ⟨rapCall call >>= f, rSocketRapServerContinue u s, [], []⟩
      ⟨f (u.call s.user call).2, rSocketRapServerContinue u ⟨buf, (u.call s.user call).1⟩, [], []⟩ := by
  cases call with
  | lseek offset whence => exact rapLseek_leads u hbuf f offset whence
  | read count => exact rapRead_leads u hbuf f hfits
  | write data arrived =>
    obtain rfl : arrived = 5 := hfits
    exact rapWrite_leads u hbuf f data

omit hbuf in
/-- The calls of a session, one after the other, in one order of steps. -/
theorem rapCalls_leads {calls : List RapCall} (hfits : ∀ call ∈ calls, call.Fits) {s : RSocketRapServer υ}
    (hbuf : s.buf.length = 4128) (f : List RapReply → Proc Ut8 ρ) : ∃ buf : List Ut8, buf.length = 4128 ∧
    Talk.Leads (rapServe u) ⟨rapCalls calls >>= f, rSocketRapServerContinue u s, [], []⟩
      ⟨f (u.calls s.user calls).2, rSocketRapServerContinue u ⟨buf, (u.calls s.user calls).1⟩, [], []⟩ := by
  induction calls generalizing s f with
  | nil => exact ⟨s.buf, hbuf, .refl⟩
  | cons call calls ih =>
    rw [List.forall_mem_cons] at hfits
    obtain ⟨buf, hlength, hcall⟩ := rapCall_leads u hbuf
      (fun reply => rapCalls calls >>= fun replies => f (reply :: replies)) hfits.1
    obtain ⟨buf', hlength', hcalls⟩ := @ih hfits.2 ⟨buf, (u.call s.user call).1⟩ hlength
      (fun replies => f ((u.call s.user call).2 :: replies))
    refine ⟨buf', hlength', ?_⟩
    rw [rapCalls, Proc.bind_assoc]
    simp only [Proc.bind_assoc, Proc.pure_bind]
    exact hcall.trans hcalls

omit hbuf in
/-- The name is read up to a zero: in a buffer that was never used it ends with the name. -/
theorem rapServeOpen_moves (user : υ) (flags : Ut8) {file : List Ut8} (hsmall : file.length < 128)
    (hnul : ∀ c ∈ file, c ≠ 0) : ∃ buf reply : List Ut8, buf.length = 4128 ∧ reply.length = 5 ∧
      reply.head? = some 0x81 ∧
      Proc.Moves (rapServe u) (rapServeOpen u ⟨0x01 :: List.replicate 4127 0, user⟩)
        (flags :: BitVec.ofNat 8 file.length :: file) []
        (rSocketRapServerContinue u ⟨buf, u.open_ user file flags.toNat⟩) [] reply := by
  obtain ⟨size, hsize⟩ : ∃ size : Ut8, size = BitVec.ofNat 8 file.length := ⟨_, rfl⟩
  have hcount : size.toNat = file.length := by
    rw [hsize, BitVec.toNat_ofNat]
    omega
  rw [← hsize]
  have hargs : overwrite (0x01 :: List.replicate 4127 0) 1 [flags, size] =
      0x01 :: flags :: size :: List.replicate 4125 0 :=
    overwrite_append [0x01] (List.replicate 4127 0) rfl rfl
  have hname : overwrite (0x01 :: flags :: size :: List.replicate 4125 0) 3 file =
      0x01 :: flags :: size :: (file ++ List.replicate (4125 - file.length) 0) := by
    have h := overwrite_append [0x01, flags, size] (List.replicate 4125 0) rfl (rfl : file.length = file.length)
    rwa [List.drop_replicate] at h
  have hstring : cString (file ++ List.replicate (4125 - file.length) 0) = file := by
    obtain ⟨k, hk⟩ : ∃ k, 4125 - file.length = k + 1 := ⟨4124 - file.length, by omega⟩
    rw [cString, hk, List.takeWhile_append_of_pos (fun c hc => decide_eq_true (hnul c hc)), List.replicate_succ,
      List.takeWhile_cons_of_neg (by simp), List.append_nil]
  obtain ⟨buf, hbuf⟩ : ∃ buf : List Ut8,
      buf = 0x81 :: flags :: size :: (file ++ List.replicate (4125 - file.length) 0) := ⟨_, rfl⟩
  have hlength : buf.length = 4128 := by
    rw [hbuf]
    simp only [List.length_cons, List.length_append, List.length_replicate]
    omega
  refine ⟨buf, buf.take 5, hlength, by rw [List.length_take, hlength]; rfl, by rw [hbuf]; rfl, ?_⟩
  simp only [rapServeOpen, Proc.take_bind, Proc.put_bind]
  refine (Proc.recv_moves (rfl : [flags, size].length = 2) _ file []).trans ?_
  simp only [hargs, List.getD_cons_succ, List.getD_cons_zero, hcount]
  refine Proc.answer_moves (r := some ⟨buf, u.open_ user file flags.toNat⟩) rfl ?_ rfl
  simp only [hname, List.getD_cons_succ, List.getD_cons_zero, List.drop_succ_cons, List.drop_zero, hstring,
    overwrite_head, ← hbuf]
  rfl

omit hbuf in
theorem rapOpen_leads (user : υ) (flg : Int) {file : List Ut8} (hsmall : file.length < 128) (hnul : ∀ c ∈ file, c ≠ 0)
    (f : Bool → Proc Ut8 ρ) : ∃ opening, rapOpen flg file = some opening ∧ ∃ buf : List Ut8, buf.length = 4128 ∧
      Talk.Leads (rapServe u) ⟨opening >>= f, rSocketRapServerContinue u (rSocketRapServerNew user), [], []⟩
        ⟨f true, rSocketRapServerContinue u ⟨buf, u.opened user flg file⟩, [], []⟩ := by
  by_cases hempty : file = []
  · refine ⟨_, if_pos hempty, List.replicate 4128 0, List.length_replicate, ?_⟩
    rw [RapUser.opened, if_pos hempty]
    exact .refl
  · obtain ⟨buf, reply, hlength, hreply, hhead, hserver⟩ := rapServeOpen_moves u user (BitVec.ofInt 8 flg) hsmall hnul
    have hmod : file.length % 256 = file.length := Nat.mod_eq_of_lt (by omega)
    refine ⟨_, by rw [rapOpen, hmod, if_neg hempty, if_neg (by omega)], buf, hlength, ?_⟩
    simp only [Proc.put_bind, Proc.take_bind, Proc.send_bind, Proc.recv_bind, List.take_length]
    rw [RapUser.opened, if_neg hempty]
    apply Talk.exchange ((continue_moves u (rSocketRapServerNew user) 0x01 _).trans hserver)
    apply Proc.recv_reply_moves hreply
    rw [hhead, decide_eq_true rfl]
    rfl

omit hbuf in
/-- However the two programs and the network take turns, a connection ends, and it ends with the replies and the
user that the callbacks alone would give. -/
theorem rap_session (user : υ) (flg : Int) {file : List Ut8} (hsmall : file.length < 128) (hnul : ∀ c ∈ file, c ≠ 0)
    {calls : List RapCall} (hfits : ∀ call ∈ calls, call.Fits) : ∃ p, rapSession flg file calls = some p ∧
      ∃ (buf : List Ut8) (n : Nat), ∀ m t,
        Walk (Talk.Step (rapServe u)) m ⟨p, rSocketRapServerContinue u (rSocketRapServerNew user), [], []⟩ t →
          ∃ k, m + k = n ∧ Walk (Talk.Step (rapServe u)) k t
            ⟨.ret (some (u.calls (u.opened user flg file) calls).2),
              rSocketRapServerContinue u ⟨buf, (u.calls (u.opened user flg file) calls).1⟩, [], []⟩ := by
  obtain ⟨opening, hopening, buf, hlength, hopen⟩ := rapOpen_leads u user flg hsmall hnul
    (fun opened => if opened then rapCalls calls >>= fun replies => .ret (some replies) else .ret none)
  obtain ⟨buf', -, hcalls⟩ := @rapCalls_leads _ _ u _ hfits ⟨buf, u.opened user flg file⟩ hlength
    (fun replies => .ret (some replies))
  refine ⟨_, by rw [rapSession, hopening]; rfl, buf', ?_⟩
  obtain ⟨n, horder⟩ := Talk.every_order (hopen.trans hcalls)
  exact ⟨n, horder⟩

end Client

/-- Callbacks over the bytes of one file and a position in it. -/
def bytesUser : RapUser (List Ut8 × Nat) where
  open_ user _ _ := (user.1, 0)
  read user n := (user, (List.range n).map fun i => user.1.getD (user.2 + i) 0xff)
  write user data := ((overwrite user.1 user.2 data, user.2), BitVec.ofNat 32 data.length)
  seek user offset _ := ((user.1, offset.toNat), offset.setWidth 32)
  cmd user _ := (user, none)
  close user _ := user
  fills user n := by rw [List.length_map, List.length_range]

theorem rap_session_bytes : ∃ p,
    rapSession 0 [0x61] [.lseek 2 0, .write [0xaa, 0xbb] 5, .lseek 1 0, .read 4] = some p ∧
      ∃ (buf : List Ut8) (n : Nat), ∀ m t,
        Walk (Talk.Step (rapServe bytesUser)) m
            ⟨p, rSocketRapServerContinue bytesUser (rSocketRapServerNew ([0, 1, 2, 3, 4, 5], 3)), [], []⟩ t →
          ∃ k, m + k = n ∧ Walk (Talk.Step (rapServe bytesUser)) k t
            ⟨.ret (some [.offset 2, .wrote 2, .offset 1, .read 4 [1, 0xaa, 0xbb, 4]]),
              rSocketRapServerContinue bytesUser ⟨buf, ([0, 1, 0xaa, 0xbb, 4, 5], 1)⟩, [], []⟩ :=
  rap_session bytesUser ([0, 1, 2, 3, 4, 5], 3) 0 (by decide) (by decide) (by simp [RapCall.Fits])

end Radare
