/-
Parsing the head of a message as its bytes come in.  However the head is cut
into chunks, the calls of `onMessage` end as one call on the whole of it does.
-/
import LinuxTest.HttpParserStream

namespace LinuxTest

namespace Sone

/-- Successive calls of `onMessage`, up to the first one that does not wait for
more bytes. -/
def firstReply : HttpConn → List Bytes → HttpConn × Reply
  | c, [] => (c, .wait)
  | c, chunk :: rest =>
      match parseMessage (c.deliver chunk) with
      | (next, .wait) => firstReply next rest
      | result => result

/-- The same calls, each followed only up to the move to `CHECK_CONTENT`, with
the number of lines taken. -/
def headChunks : HttpConn → Nat → List Bytes →
    HttpConn × Nat × Option LoopEnd
  | c, lines, [] => (c, lines, some .more)
  | c, lines, chunk :: rest =>
      match headLoop ((c.deliver chunk).queue.length + 1) (c.deliver chunk)
        lines with
      | (next, lines, some .more) => headChunks next lines rest
      | result => result

theorem headChunks_cons (c : HttpConn) (lines : Nat) (chunk : Bytes)
    (rest : List Bytes) {result : HttpConn × Nat × Option LoopEnd}
    (hhead : headLoop ((c.deliver chunk).queue.length + 1)
      (c.deliver chunk) lines = result) :
    headChunks c lines (chunk :: rest) =
      if result.2.2 = some .more then headChunks result.1 result.2.1 rest
      else result := by
  rw [headChunks, hhead]
  rcases result with ⟨next, count, _ | stop⟩
  · rfl
  · cases stop <;> rfl

/-- What the calls reply is what their head loops come to. -/
theorem firstReply_eq (c : HttpConn) (lines : Nat) (chunks : List Bytes) :
    firstReply c chunks = headReply (headChunks c lines chunks) := by
  induction chunks generalizing c lines with
  | nil => rfl
  | cons chunk rest ih =>
      have hreply : parseMessage (c.deliver chunk) =
          headReply (headLoop ((c.deliver chunk).queue.length + 1)
            (c.deliver chunk) lines) := by
        rw [parseMessage_eq, headReply_lines _ _ lines]
      rw [firstReply, headChunks_cons c lines chunk rest rfl, hreply]
      generalize headLoop ((c.deliver chunk).queue.length + 1)
        (c.deliver chunk) lines = result
      by_cases hmore : result.2.2 = some .more
      · obtain ⟨next, count, stop⟩ := result
        cases hmore
        rw [if_pos rfl]
        exact ih next count
      · rw [if_neg hmore]
        rcases hresult : headReply result with ⟨next, reply⟩
        cases reply with
        | wait => exact absurd (headReply_wait hresult).1 hmore
        | _ => rfl

/-- From a connection that waits, the chunks decide what their concatenation
decides; the bytes of the chunks behind the decision are not delivered. -/
theorem headChunks_eq_headLoop {c : HttpConn}
    (hstate : c.state ≠ .checkContent) (hwait : turn c = (c, some .more))
    (lines : Nat) (chunks : List Bytes) :
    ∃ rest,
      headLoop ((c.deliver chunks.flatten).queue.length + 1)
          (c.deliver chunks.flatten) lines =
        ((headChunks c lines chunks).1.deliver rest,
          (headChunks c lines chunks).2) ∧
      ((headChunks c lines chunks).2.2 = some .more → rest = []) := by
  induction chunks generalizing c lines with
  | nil =>
      refine ⟨[], ?_, fun _ => rfl⟩
      rw [List.flatten_nil, HttpConn.deliver_nil, headLoop_stop hstate hwait,
        headChunks, HttpConn.deliver_nil]
  | cons chunk more ih =>
      rw [List.flatten_cons, ← HttpConn.deliver_append,
        headLoop_deliver lines more.flatten
          (Nat.lt_add_one (c.deliver chunk).queue.length)
          (Nat.lt_add_one _),
        headChunks_cons c lines chunk more rfl]
      by_cases hmore : (headLoop ((c.deliver chunk).queue.length + 1)
          (c.deliver chunk) lines).2.2 = some .more
      · obtain ⟨hle, hnextState, hnextWait⟩ := headLoop_waits hmore
        obtain ⟨rest, hrest, hdone⟩ := ih hnextState hnextWait
          (headLoop ((c.deliver chunk).queue.length + 1)
            (c.deliver chunk) lines).2.1
        rw [if_pos hmore, if_pos hmore]
        refine ⟨rest, ?_, hdone⟩
        rw [← hrest]
        apply headLoop_fuel
        · simp only [HttpConn.deliver, List.length_append] at hle ⊢
          omega
        · exact Nat.lt_add_one _
      · rw [if_neg hmore, if_neg hmore]
        exact ⟨more.flatten, rfl, fun h => absurd h hmore⟩

/-- Behind the bytes that moved a connection to `CHECK_CONTENT` stands a blank
line. -/
theorem headLoop_blank {fuel : Nat} {c next : HttpConn} {lines count : Nat}
    (hstate : c.state ≠ .checkContent)
    (hhead : headLoop fuel c lines = (next, count, none)) :
    ∃ before, (if c.state = .checkHeader then cr :: lf :: c.queue
      else c.queue) = before ++ [cr, lf, cr, lf] ++ next.queue := by
  induction fuel generalizing c lines with
  | zero => cases hhead
  | succ fuel ih =>
      rcases hturn : turn c with ⟨mid, _ | stop⟩
      · rw [headLoop_step hstate hturn] at hhead
        obtain ⟨line, hqueue, _, hread⟩ := turn_takes hstate hturn
        cases hc : c.state with
        | checkContent => exact absurd hc hstate
        | checkRequestLine =>
            rw [hc] at hread
            have hmid := (readLine_requestLine hread).1
            obtain ⟨before, hbefore⟩ := ih (by simp [hmid]) hhead
            rw [if_pos hmid] at hbefore
            exact ⟨line ++ before, by simp [hqueue, hbefore]⟩
        | checkHeader =>
            rw [if_pos rfl]
            by_cases hnil : line = []
            · subst hnil
              rw [hc, readLine, if_pos rfl] at hread
              cases fuel with
              | zero => cases hhead
              | succ fuel =>
                  have hmid : mid.state = .checkContent := by
                    rw [Prod.mk.injEq, Prod.mk.injEq] at hread
                    exact hread.1.1.symm
                  rw [headLoop_content hmid] at hhead
                  cases hhead
                  exact ⟨[], by simp [hqueue]⟩
            · rw [hc] at hread
              have hmid := (readLine_header hnil hread).1
              obtain ⟨before, hbefore⟩ := ih (by simp [hmid]) hhead
              rw [if_pos hmid] at hbefore
              exact ⟨cr :: lf :: line ++ before, by simp [hqueue, hbefore]⟩
      · rw [headLoop_stop hstate hturn] at hhead
        cases hhead

/-- Two ways to receive a head come to the same: the same outcome after the
same number of lines, the same stored request and parse state, and, unless it
ended in an error or an exception, the same bytes left over. -/
structure SameHead (one other : HttpConn × Nat × Option LoopEnd) : Prop where
  outcome_eq : one.2.2 = other.2.2
  lines_eq : one.2.1 = other.2.1
  request_eq : one.1.request = other.1.request
  state_eq : one.1.state = other.1.state
  queue_eq : one.2.2 = none ∨ one.2.2 = some .more →
    one.1.queue = other.1.queue

/-- However a head is cut, it is parsed as in one piece, and the calls reply
what comes of it.  The blank line that ends a head may stand at the end of the
bytes only: behind it the code does not cut the input into lines any more. -/
theorem headChunks_eq_oneShot (head : Bytes)
    (hblank : ∀ before after, head = before ++ [cr, lf, cr, lf] ++ after →
      after = [])
    (chunks : List Bytes) (hchunks : chunks.flatten = head) :
    SameHead (headChunks .init 0 chunks) (headChunks .init 0 [head]) ∧
      (headChunks .init 0 chunks).2.2 ≠ some .outOfFuel ∧
      firstReply .init chunks = headReply (headChunks .init 0 chunks) := by
  subst hchunks
  have hstate : HttpConn.init.state ≠ .checkContent := by simp [HttpConn.init]
  have hwait : turn .init = (.init, some .more) :=
    turn_eq_of_more hstate (parseLine_absent (by simp [HttpConn.init]))
  obtain ⟨rest, hrest, hdone⟩ :=
    headChunks_eq_headLoop hstate hwait 0 chunks
  obtain ⟨last, hlast, hdoneLast⟩ :=
    headChunks_eq_headLoop hstate hwait 0 [chunks.flatten]
  rw [List.flatten_singleton, hrest, Prod.mk.injEq] at hlast
  obtain ⟨hconn, hsame⟩ := hlast
  have hqueue := congrArg HttpConn.queue hconn
  simp only [HttpConn.deliver] at hqueue
  refine ⟨⟨by rw [hsame], by rw [hsame], ?_, ?_, ?_⟩, ?_,
    firstReply_eq .init 0 chunks⟩
  · simpa [HttpConn.deliver] using congrArg HttpConn.request hconn
  · simpa [HttpConn.deliver] using congrArg HttpConn.state hconn
  · rintro (hnone | hmore)
    · -- behind the blank line nothing is left, on either side
      have hhead : headLoop
          ((HttpConn.init.deliver chunks.flatten).queue.length + 1)
          (HttpConn.init.deliver chunks.flatten) 0 =
            ((headChunks .init 0 chunks).1.deliver rest,
              (headChunks .init 0 chunks).2.1, none) := by
        rw [hrest, ← hnone]
      obtain ⟨before, hbefore⟩ := headLoop_blank
        (c := HttpConn.init.deliver chunks.flatten) hstate hhead
      have hempty := hblank before _ hbefore
      simp only [HttpConn.deliver, List.append_eq_nil_iff] at hempty
      rw [hempty.1, hempty.2, List.nil_append] at hqueue
      rw [hempty.1, (List.append_eq_nil_iff.mp hqueue.symm).1]
    · rw [hdone hmore, hdoneLast (hsame ▸ hmore)] at hqueue
      simpa using hqueue
  · have hfuel := headLoop_ne_outOfFuel
      (c := HttpConn.init.deliver chunks.flatten) 0 (Nat.lt_add_one _)
    rwa [hrest] at hfuel

theorem headChunks_eq_oneShot_cutHead :
    SameHead
      (headChunks .init 0 [lit "GET / HT", lit "TP/1.1\r", lit "\n\r\n"])
      (headChunks .init 0 [lit "GET / HTTP/1.1\r\n\r\n"]) := by
  have hplace : ∀ n ≤ 14,
      ((lit "GET / HTTP/1.1\r\n\r\n").drop n).take 4 = [cr, lf, cr, lf] →
        n = 14 := by decide
  refine (headChunks_eq_oneShot _ ?_ _ (by decide)).1
  intro before after heq
  have hlen := congrArg List.length heq
  have hdrop := congrArg (fun text => (text.drop before.length).take 4) heq
  simp only [List.append_assoc, List.drop_left] at hdrop
  have htotal : (lit "GET / HTTP/1.1\r\n\r\n").length = 18 := by decide
  rw [htotal] at hlen
  simp only [List.length_append, List.length_cons, List.length_nil] at hlen
  have hlast := hplace before.length (by omega) hdrop
  exact List.length_eq_zero_iff.mp (by omega)

end Sone

end LinuxTest
