import SysProg.Rio.Calls

/-!
# Runs of the Rio package

Consecutive calls on one descriptor deliver the stream in order, whatever the
pieces in which the device hands it out.  Consecutive writes put their bytes
on the descriptor in order, whatever the pieces in which it takes them.
-/

namespace SysProg.Rio

open Logic

/-! ## Buffered reading -/

/-- Consecutive calls on a reader. -/
def calls : List Call → RM (List Result)
  | [] => pure []
  | call :: rest => do
      let result ← call.exec
      let results ← calls rest
      pure (result :: results)

/-- The results of the calls on the stream itself, and what they leave. -/
def idealCalls (bytes : List UInt8) : List Call → List Result × List UInt8
  | [] => ([], bytes)
  | call :: rest =>
      let answer := call.ideal bytes
      let later := idealCalls answer.2 rest
      (answer.1 :: later.1, later.2)

/-- Each call answers as on the bytes that the calls before it have left, or it
fails and takes some of them. -/
inductive Faithful : List UInt8 → List Call → List Result → List UInt8 → Prop where
  | nil {bytes : List UInt8} : Faithful bytes [] [] bytes
  | answered {bytes left : List UInt8} {call : Call} {rest : List Call} {results : List Result}
      (later : Faithful (call.ideal bytes).2 rest results left) :
      Faithful bytes (call :: rest) ((call.ideal bytes).1 :: results) left
  | failed {bytes left : List UInt8} {call : Call} {rest : List Call} {results : List Result}
      {k : Nat} (few : k < call.size) (later : Faithful (bytes.drop k) rest results left) :
      Faithful bytes (call :: rest) ((-1, bytes.take k) :: results) left

/-- A line and what is behind it make up the bytes. -/
theorem rioReadlineb_append (n : Nat) (bytes : List UInt8) :
    (Proxy.rioReadlineb n bytes).1 ++ (Proxy.rioReadlineb n bytes).2 = bytes := by
  induction n, bytes using Proxy.rioReadlineb.induct with
  | case1 bytes => simp [Proxy.rioReadlineb]
  | case2 n => simp [Proxy.rioReadlineb]
  | case3 n bytes => simp [Proxy.rioReadlineb]
  | case4 n c bytes other ih => simpa [Proxy.rioReadlineb, other] using ih

/-- What a call takes from the stream is what it has stored. -/
theorem Call.moved_ideal (call : Call) (bytes : List UInt8) :
    call.moved (call.ideal bytes).1 ++ (call.ideal bytes).2 = bytes := by
  cases call with
  | readnb n => simp [moved, ideal]
  | readlineb maxlen =>
      have whole := rioReadlineb_append (maxlen - 1) bytes
      simp only [moved, ideal]
      split
      · rename_i empty
        rw [empty.1] at whole
        simpa using whole
      · rw [if_neg (by omega)]
        simpa using whole

/-- The bytes that leave the stream are those that the calls have stored. -/
theorem Faithful.conserves {bytes left : List UInt8} {cs : List Call} {results : List Result}
    (faithful : Faithful bytes cs results left) :
    (List.zipWith Call.moved cs results).flatten ++ left = bytes := by
  induction faithful with
  | nil => rfl
  | @answered bytes left call rest results later ih =>
      rw [List.zipWith_cons_cons, List.flatten_cons, List.append_assoc, ih, call.moved_ideal]
  | @failed bytes left call rest results k few later ih =>
      have stored : call.moved (-1, bytes.take k) = bytes.take k := by
        cases call with
        | readnb n => rfl
        | readlineb maxlen => simp [Call.moved]
      rw [List.zipWith_cons_cons, List.flatten_cons, List.append_assoc, ih, stored,
        List.take_append_drop]

theorem Call.ideal_nonneg (call : Call) (bytes : List UInt8) : 0 ≤ (call.ideal bytes).1.1 := by
  cases call with
  | readnb n => simp [ideal]
  | readlineb maxlen =>
      simp only [ideal]
      split <;> simp

/-- A call has failed. -/
def failing (result : Result) : Bool := result.1 = -1

theorem Call.failing_ideal (call : Call) (bytes : List UInt8) :
    failing (call.ideal bytes).1 = false := by
  have nonneg := call.ideal_nonneg bytes
  exact decide_eq_false (by omega)

/-- From every state of a reader consecutive calls end; each failure of a call
uses up a failure of the device. -/
theorem wp_calls {r : Reader} (sound : r.Sound) (cs : List Call) :
    wp (calls cs) (fun results r' => r'.Sound ∧ Faithful r.pending cs results r'.pending ∧
      results.countP failing + r'.failures = r.failures) r := by
  induction cs generalizing r with
  | nil =>
      rw [calls, wp_pure]
      exact ⟨sound, .nil, Nat.zero_add _⟩
  | cons call rest ih =>
      rw [calls, wp_bind]
      refine wp_mono (call.wp_exec sound) ?_
      intro result r' answers
      rw [wp_bind]
      cases answers with
      | done sound' left steady =>
          refine wp_mono (ih sound') ?_
          rintro results r'' ⟨sound'', later, count⟩
          rw [wp_pure, List.countP_cons_of_neg (by rw [call.failing_ideal]; exact Bool.false_ne_true)]
          rw [left] at later
          exact ⟨sound'', .answered later, count.trans steady⟩
      | failed few inside sound' left fewer =>
          refine wp_mono (ih sound') ?_
          rintro results r'' ⟨sound'', later, count⟩
          rw [wp_pure, List.countP_cons_of_pos (by rfl)]
          rw [left] at later
          exact ⟨sound'', .failed few later, by omega⟩

/-- Without a failing call the results are those on the stream itself. -/
theorem Faithful.ideal {bytes left : List UInt8} {cs : List Call} {results : List Result}
    (faithful : Faithful bytes cs results left) (none_failed : results.countP failing = 0) :
    (results, left) = idealCalls bytes cs := by
  induction faithful with
  | nil => rfl
  | @answered bytes left call rest results later ih =>
      rw [List.countP_cons_of_neg (by rw [call.failing_ideal]; exact Bool.false_ne_true)]
        at none_failed
      rw [idealCalls, ← ih none_failed]
  | failed few later ih =>
      rw [List.countP_cons_of_pos (by rfl)] at none_failed
      omega

theorem calls_run (bytes : List UInt8) (plan : List Answer) (cs : List Call) :
    ∃ results r, calls cs (rioReadinitb ⟨bytes, plan⟩) = some (results, r) ∧
      Faithful bytes cs results r.pending ∧ results.countP failing ≤ failures plan := by
  have sound : (rioReadinitb ⟨bytes, plan⟩).Sound := Nat.zero_le _
  obtain ⟨⟨results, r⟩, run, -, faithful, count⟩ := wp_calls sound cs
  exact ⟨results, r, run, faithful, Nat.le.intro count⟩

/-- On every device, consecutive calls on a new reader end and store the bytes
of the stream in order; if the device never fails, then the results depend on
the stream alone. -/
theorem calls_faithful (bytes : List UInt8) (plan : List Answer) (cs : List Call) :
    ∃ results r, calls cs (rioReadinitb ⟨bytes, plan⟩) = some (results, r) ∧
      Faithful bytes cs results r.pending ∧
      (List.zipWith Call.moved cs results).flatten ++ r.pending = bytes ∧
      results.countP failing ≤ failures plan ∧
      (failures plan = 0 → (results, r.pending) = idealCalls bytes cs) := by
  obtain ⟨results, r, run, faithful, few⟩ := calls_run bytes plan cs
  refine ⟨results, r, run, faithful, faithful.conserves, few, fun none_failed => ?_⟩
  exact faithful.ideal (Nat.le_zero.mp (none_failed ▸ few))

/-! ## Unbuffered reading -/

/-- `rio_readn` reads from the device, behind what the buffer of a reader may
still hold. -/
theorem wp_readnFrom {stream : List UInt8} {fuel taken nleft : Nat} {fd : Source UInt8}
    (enough : nleft + fd.plan.length < fuel) (inside : taken ≤ stream.length)
    (rest : fd.rest = stream.drop taken) (steady : failures fd.plan = 0) :
    wp (readnFrom (taken + nleft) fuel nleft (stream.take taken)) (fun result fd' =>
      result = (((stream.take (taken + nleft)).length, stream.take (taken + nleft)) : Result) ∧
        fd'.rest = stream.drop (taken + nleft)) fd := by
  induction fuel generalizing taken nleft fd with
  | zero => omega
  | succ fuel ih =>
      have far : taken + nleft - nleft = taken := Nat.add_sub_cancel _ _
      have length : (stream.take taken).length = taken := List.length_take_of_le inside
      by_cases more : 0 < nleft
      · have reads := Source.reads_read more fd
        unfold wp
        simp only [readnFrom, if_pos more]
        generalize fd.read nleft = answer at reads
        obtain ⟨reading, fd'⟩ := answer
        cases reads with
        | @got k plan positive bound steady' shorter =>
            rw [rest]
            cases piece : (stream.drop taken).take k with
            | nil =>
                have exhausted : stream.length ≤ taken := by
                  rcases List.take_eq_nil_iff.mp piece with none_asked | none_left
                  · omega
                  · exact List.drop_eq_nil_iff.mp none_left
                have all : stream.take (taken + nleft) = stream.take taken := by
                  rw [List.take_of_length_le exhausted, List.take_of_length_le (by omega)]
                refine ⟨_, rfl, ?_, ?_⟩
                · rw [all, length, far]
                · rw [List.drop_drop, List.drop_eq_nil_of_le (by omega),
                    List.drop_eq_nil_of_le (by omega)]
            | cons c piece' =>
                have size : (c :: piece').length = min k (stream.length - taken) := by
                  rw [← piece, List.length_take, List.length_drop]
                have total : taken + nleft = taken + (c :: piece').length +
                    (nleft - (c :: piece').length) := by omega
                have stored : stream.take taken ++ c :: piece' =
                    stream.take (taken + (c :: piece').length) := by
                  rw [← piece, ← List.take_add, List.length_take, List.length_drop]
                  rcases Nat.le_total k (stream.length - taken) with few | many
                  · rw [Nat.min_eq_left few]
                  · rw [Nat.min_eq_right many, List.take_of_length_le (by omega),
                      List.take_of_length_le (by omega)]
                have left : (stream.drop taken).drop k =
                    stream.drop (taken + (c :: piece').length) := by
                  rw [List.drop_drop, size]
                  rcases Nat.le_total k (stream.length - taken) with few | many
                  · rw [Nat.min_eq_left few]
                  · rw [Nat.min_eq_right many, List.drop_eq_nil_of_le (by omega),
                      List.drop_eq_nil_of_le (by omega)]
                have some_read : 0 < (c :: piece').length := Nat.succ_pos _
                have enough' : nleft - (c :: piece').length + plan.length < fuel := by omega
                have later := @ih _ _ ⟨_, plan⟩ enough' (by omega) left (steady'.trans steady)
                rw [← total, ← stored] at later
                exact later
        | @interrupted plan steady' shorter =>
            have enough' : nleft + plan.length < fuel := by omega
            exact @ih _ _ ⟨fd.rest, plan⟩ enough' inside rest (steady'.trans steady)
        | failed fewer shorter => omega
      · obtain rfl : nleft = 0 := by omega
        refine ⟨(((taken + 0 - 0 : Nat), stream.take taken), fd), ?_, ?_, rest⟩
        · simp only [readnFrom, if_neg more]
        · rw [Nat.add_zero, length, Nat.sub_zero]

theorem wp_rioReadn (n : Nat) {fd : Source UInt8} (steady : failures fd.plan = 0) :
    wp (rioReadn n) (fun result fd' =>
      result = (((fd.rest.take n).length, fd.rest.take n) : Result) ∧
        fd'.rest = fd.rest.drop n) fd := by
  have whole := wp_readnFrom (Nat.lt_succ_self (n + fd.plan.length)) (Nat.zero_le _)
    (List.drop_zero (l := fd.rest)).symm steady
  rw [Nat.zero_add] at whole
  exact whole

/-! ## Writing -/

/-- What `rio_writen` can do. -/
inductive Wrote {β : Type} (usrbuf : List β) (fd : Sink β) : Int → Sink β → Prop where
  | all {fd' : Sink β} (taken : fd'.taken = fd.taken ++ usrbuf)
      (steady : failures fd'.plan = failures fd.plan) : Wrote usrbuf fd usrbuf.length fd'
  | failed {k : Nat} {fd' : Sink β} (few : k < usrbuf.length)
      (taken : fd'.taken = fd.taken ++ usrbuf.take k)
      (fewer : failures fd'.plan + 1 = failures fd.plan) : Wrote usrbuf fd (-1) fd'

/-- The loop of `rio_writen` after the first `k` bytes. -/
theorem wp_writenFrom {β : Type} {usrbuf : List β} {fd0 fd : Sink β} {fuel k : Nat}
    (enough : usrbuf.length - k + fd.plan.length < fuel) (inside : k ≤ usrbuf.length)
    (taken : fd.taken = fd0.taken ++ usrbuf.take k) (steady : failures fd.plan = failures fd0.plan) :
    wp (writenFrom usrbuf.length fuel (usrbuf.drop k)) (Wrote usrbuf fd0) fd := by
  induction fuel generalizing k fd with
  | zero => omega
  | succ fuel ih =>
      by_cases more : 0 < (usrbuf.drop k).length
      · have writes := Sink.writes_write (List.ne_nil_of_length_pos more) fd
        have left := List.length_drop (i := k) (l := usrbuf)
        unfold wp
        simp only [writenFrom, if_pos more]
        generalize fd.write (usrbuf.drop k) = answer at writes
        obtain ⟨writing, fd'⟩ := answer
        cases writes with
        | @accepted j plan positive bound steady' shorter =>
            simp only [List.drop_drop]
            have enough' : usrbuf.length - (k + j) + plan.length < fuel := by omega
            refine @ih ⟨_, plan⟩ (k + j) enough' (by omega) ?_ (steady'.trans steady)
            rw [taken, List.append_assoc, ← List.take_add]
        | @interrupted plan steady' shorter =>
            have enough' : usrbuf.length - k + plan.length < fuel := by omega
            exact @ih ⟨fd.taken, plan⟩ k enough' inside taken (steady'.trans steady)
        | failed fewer shorter =>
            exact ⟨_, rfl, .failed (by omega) taken (fewer.trans steady)⟩
      · have all : usrbuf.take k = usrbuf := by
          rw [List.length_drop] at more
          exact List.take_of_length_le (by omega)
        refine ⟨(usrbuf.length, fd), ?_, .all (by rw [taken, all]) steady⟩
        simp only [writenFrom, if_neg more]

/-- `rio_writen` ends, having written the whole buffer or, after a failure of
the device, the front of it. -/
theorem wp_rioWriten {β : Type} (usrbuf : List β) (fd : Sink β) :
    wp (rioWriten usrbuf) (Wrote usrbuf fd) fd :=
  wp_writenFrom (k := 0) (by omega) (Nat.zero_le _) (by simp) rfl

/-- Consecutive calls of `rio_writen`. -/
def writes : List (List UInt8) → Prog (Sink UInt8) (List Int)
  | [] => pure []
  | usrbuf :: rest => do
      let result ← rioWriten usrbuf
      let results ← writes rest
      pure (result :: results)

/-- On a device that does not fail every buffer is written whole, in order. -/
theorem wp_writes {fd : Sink UInt8} (steady : failures fd.plan = 0) (bufs : List (List UInt8)) :
    wp (writes bufs) (fun results fd' => results = bufs.map (fun usrbuf => (usrbuf.length : Int)) ∧
      fd'.taken = fd.taken ++ bufs.flatten) fd := by
  induction bufs generalizing fd with
  | nil =>
      rw [writes, wp_pure]
      exact ⟨rfl, (List.append_nil _).symm⟩
  | cons usrbuf rest ih =>
      rw [writes, wp_bind]
      refine wp_mono (wp_rioWriten usrbuf fd) ?_
      intro result fd' wrote
      cases wrote with
      | all taken steady' =>
          rw [wp_bind]
          refine wp_mono (ih (steady'.trans steady)) ?_
          rintro results fd'' ⟨rfl, taken'⟩
          rw [wp_pure]
          refine ⟨rfl, ?_⟩
          rw [taken', taken, List.flatten_cons, List.append_assoc]
      | failed few taken fewer => omega

/-- What one side writes with `rio_writen`, the other side reads: with the
buffered calls as from one stream, with `rio_readn` as one block. -/
theorem transmits (bufs : List (List UInt8)) (writePlan readPlan : List Answer) (cs : List Call)
    (writes_succeed : failures writePlan = 0) (reads_succeed : failures readPlan = 0) :
    ∃ lengths fd, writes bufs ⟨[], writePlan⟩ = some (lengths, fd) ∧
      lengths = bufs.map (fun usrbuf => (usrbuf.length : Int)) ∧
      (∃ results r, calls cs (rioReadinitb ⟨fd.taken, readPlan⟩) = some (results, r) ∧
        (results, r.pending) = idealCalls bufs.flatten cs) ∧
      ∃ fd', rioReadn bufs.flatten.length ⟨fd.taken, readPlan⟩ =
        some (((bufs.flatten.length, bufs.flatten) : Result), fd') ∧ fd'.rest = [] := by
  obtain ⟨⟨lengths, fd⟩, run, same, taken⟩ := @wp_writes ⟨[], writePlan⟩ writes_succeed bufs
  rw [List.nil_append] at taken
  refine ⟨lengths, fd, run, same, ?_, ?_⟩
  · obtain ⟨results, r, read, faithful, few⟩ := calls_run fd.taken readPlan cs
    have none_failed : results.countP failing = 0 := Nat.le_zero.mp (reads_succeed ▸ few)
    exact ⟨results, r, read, taken ▸ faithful.ideal none_failed⟩
  · obtain ⟨⟨result, fd'⟩, read, rfl, rest⟩ :=
      @wp_rioReadn bufs.flatten.length ⟨fd.taken, readPlan⟩ reads_succeed
    have whole : fd.taken.take bufs.flatten.length = bufs.flatten := by
      rw [taken, List.take_length]
    refine ⟨fd', ?_, ?_⟩
    · simp only [whole] at read
      exact read
    · rw [rest, taken, List.drop_length]

theorem transmits_twoLines :
    ∃ lengths fd, writes [[72, 105], [10]] ⟨[], [.interrupted, .upTo 0]⟩ = some (lengths, fd) ∧
      lengths = [2, 1] ∧
      (∃ results r, calls [.readlineb 80] (rioReadinitb ⟨fd.taken, [.upTo 0]⟩) = some (results, r) ∧
        (results, r.pending) = idealCalls [72, 105, 10] [.readlineb 80]) ∧
      ∃ fd', rioReadn 3 ⟨fd.taken, [.upTo 0]⟩ = some (((3, [72, 105, 10]) : Result), fd') ∧
        fd'.rest = [] :=
  transmits [[72, 105], [10]] [.interrupted, .upTo 0] [.upTo 0] [.readlineb 80]
    (by decide) (by decide)

end SysProg.Rio
