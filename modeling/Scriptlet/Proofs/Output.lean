import Mathlib.Data.List.Basic
import Mathlib.Data.List.DropRight
import Scriptlet.Proofs.Requests

/-!
# Output is a log

All that requests do to a console can be told as a list of signals: a channel is
attached, a line goes to a channel, or a channel is cleared. A call of `puts`
sends a line for each argument, and no other builtin sends anything. What a
buffer holds at the end, and what has come out on standard output, can be read
off the list. A registry is known by its channel, so registries that share a
channel send to the same one.
-/
namespace Scriptlet

inductive Signal where
  | attach (channel : Channel)
  | line (id : ChannelId) (text : Text)
  | clear (id : ChannelId)

/-- The lines, each ended by a line feed. -/
def Text.ofLines (lines : List Text) : Text := lines.flatMap (· ++ ['\n'])

theorem Text.ofLines_append (front back : List Text) :
    ofLines (front ++ back) = ofLines front ++ ofLines back := by
  simp only [ofLines, List.flatMap_append]

theorem Text.ofLines_singleton (line : Text) : ofLines [line] = line ++ ['\n'] := by
  simp only [ofLines, List.flatMap_cons, List.flatMap_nil, List.append_nil]

namespace Channel

def isStandard : Channel → Bool
  | .standard => true
  | .silent | .buffer _ => false

theorem isStandard_print (line : Text) (ch : Channel) :
    (ch.print line).isStandard = ch.isStandard := by
  cases ch <;> rfl

theorem isStandard_clear (ch : Channel) : ch.clear.isStandard = ch.isStandard := by
  cases ch <;> rfl

theorem echo_eq (line : Text) (ch : Channel) :
    ch.echo line = if ch.isStandard = true then line ++ ['\n'] else [] := by
  cases ch <;> rfl

/-- What a signal makes of the channel with the given number. -/
def see (id : ChannelId) (s : Signal) (ch : Channel) : Channel :=
  match s with
  | .attach _ => ch
  | .line i text => if i = id then ch.print text else ch
  | .clear i => if i = id then ch.clear else ch

end Channel

/-! ### Logs -/

namespace Signal

/-- The channel that a signal is sent to. -/
def target? : Signal → Option ChannelId
  | .attach _ => none
  | .line id _ | .clear id => some id

def attached? : Signal → Option Channel
  | .attach channel => some channel
  | .line _ _ | .clear _ => none

def lineTo? (p : ChannelId → Bool) : Signal → Option Text
  | .line id text => if p id = true then some text else none
  | .attach _ | .clear _ => none

def clears (id : ChannelId) : Signal → Bool
  | .clear i => i == id
  | .attach _ | .line _ _ => false

/-- The channels that are attached, in their order. The number of a channel is its
place in the list. -/
def attached (log : List Signal) : List Channel := log.filterMap attached?

/-- The lines to channels of the given kind, in their order. -/
def linesTo (p : ChannelId → Bool) (log : List Signal) : List Text := log.filterMap (lineTo? p)

/-- What comes after the last clearing of the channel. -/
def sinceClear (id : ChannelId) (log : List Signal) : List Signal :=
  log.rtakeWhile fun s => !s.clears id

/-- The text of all lines that were sent to the channel since it was last cleared. -/
def contents (id : ChannelId) (log : List Signal) : Text :=
  Text.ofLines (linesTo (· == id) (sinceClear id log))

/-- Whether the channel with the given number sends lines to standard output. -/
def standardAmong (channels : List Channel) (id : ChannelId) : Bool :=
  (channels[id.index]?.map Channel.isStandard).getD false

/-- Each line and each clearing goes to a channel that has been attached by then,
where there are `n` channels to begin with. -/
def Deliverable : Nat → List Signal → Prop
  | _, [] => True
  | n, .attach _ :: log => Deliverable (n + 1) log
  | n, .line id _ :: log => id.index < n ∧ Deliverable n log
  | n, .clear id :: log => id.index < n ∧ Deliverable n log

def decidableDeliverable (n : Nat) : (log : List Signal) → Decidable (Deliverable n log)
  | [] => inferInstanceAs (Decidable True)
  | .attach _ :: log => decidableDeliverable (n + 1) log
  | .line id _ :: log =>
    have := decidableDeliverable n log
    inferInstanceAs (Decidable (id.index < n ∧ Deliverable n log))
  | .clear id :: log =>
    have := decidableDeliverable n log
    inferInstanceAs (Decidable (id.index < n ∧ Deliverable n log))

instance (n : Nat) (log : List Signal) : Decidable (Deliverable n log) := decidableDeliverable n log

variable {n : Nat} {log : List Signal} {id : ChannelId}

theorem attached_concat (log : List Signal) (s : Signal) :
    attached (log ++ [s]) = attached log ++ s.attached?.toList := by
  rw [attached, List.filterMap_append, attached]
  cases s <;> rfl

theorem linesTo_concat (p : ChannelId → Bool) (log : List Signal) (s : Signal) :
    linesTo p (log ++ [s]) = linesTo p log ++ (s.lineTo? p).toList := by
  rw [linesTo, List.filterMap_append, linesTo, List.filterMap_cons, List.filterMap_nil]
  cases s.lineTo? p <;> rfl

theorem deliverable_concat {s : Signal} (h : Deliverable n (log ++ [s])) :
    Deliverable n log ∧ ∀ id, s.target? = some id → id.index < n + (attached log).length := by
  induction log generalizing n with
  | nil =>
    refine ⟨trivial, fun id hid => ?_⟩
    cases s with
    | attach channel => cases hid
    | line i text =>
      cases hid
      exact h.1
    | clear i =>
      cases hid
      exact h.1
  | cons first log ih =>
    cases first with
    | attach channel =>
      obtain ⟨hlog, hs⟩ := ih (n := n + 1) h
      refine ⟨hlog, fun id hid => ?_⟩
      have hlt := hs id hid
      simp only [attached, List.filterMap_cons, attached?, List.length_cons] at hlt ⊢
      omega
    | line i text =>
      obtain ⟨hlog, hs⟩ := ih h.2
      exact ⟨⟨h.1, hlog⟩, hs⟩
    | clear i =>
      obtain ⟨hlog, hs⟩ := ih h.2
      exact ⟨⟨h.1, hlog⟩, hs⟩

theorem Deliverable.target_lt (h : Deliverable 0 log) {s : Signal} (hs : s ∈ log)
    (hid : s.target? = some id) : id.index < (attached log).length := by
  induction log using List.reverseRecOn with
  | nil => cases hs
  | append_singleton log last ih =>
    obtain ⟨hlog, hlast⟩ := deliverable_concat h
    rw [attached_concat, List.length_append]
    rcases List.mem_append.1 hs with hs | hs
    · exact Nat.lt_add_right _ (ih hlog hs)
    · have hlt := hlast id (List.mem_singleton.1 hs ▸ hid)
      omega

/-! ### What a buffer holds -/

theorem contents_eq_nil (h : ∀ s ∈ log, s.target? ≠ some id) : contents id log = [] := by
  have hlines : linesTo (· == id) (sinceClear id log) = [] := by
    refine List.filterMap_eq_nil_iff.2 fun s hs => ?_
    have hne := h s ((List.rtakeWhile_suffix _ _).subset hs)
    cases s with
    | line i text => simpa [lineTo?, target?] using hne
    | _ => rfl
  rw [contents, hlines]
  rfl

theorem contents_concat_clear (log : List Signal) (id : ChannelId) :
    contents id (log ++ [.clear id]) = [] := by
  have hsince : sinceClear id (log ++ [.clear id]) = [] :=
    List.rtakeWhile_concat_neg _ _ _ (by simp [clears])
  rw [contents, hsince]
  rfl

theorem contents_concat {s : Signal} (h : s.clears id = false) :
    contents id (log ++ [s]) = contents id log ++ Text.ofLines (s.lineTo? (· == id)).toList := by
  have hsince : sinceClear id (log ++ [s]) = sinceClear id log ++ [s] :=
    List.rtakeWhile_concat_pos _ _ _ (by simp [h])
  rw [contents, hsince, linesTo_concat, Text.ofLines_append, contents]

end Signal

/-- What a channel has become when all that was sent to it stands in the log. -/
def Channel.after (id : ChannelId) (log : List Signal) : Channel → Channel
  | .buffer _ => .buffer (Signal.contents id log)
  | .standard => .standard
  | .silent => .silent

theorem Channel.see_after (id : ChannelId) (log : List Signal) (s : Signal) (ch : Channel) :
    (ch.after id log).see id s = ch.after id (log ++ [s]) := by
  cases ch with
  | buffer held =>
    simp only [after]
    cases s with
    | attach channel =>
      rw [Signal.contents_concat rfl]
      simp [see, Signal.lineTo?, Text.ofLines]
    | line i text =>
      rw [Signal.contents_concat rfl]
      by_cases h : i = id
      · simp [see, h, print, Signal.lineTo?, Text.ofLines_singleton]
      · simp [see, h, Signal.lineTo?, Text.ofLines]
    | clear i =>
      by_cases h : i = id
      · subst h
        simp [see, clear, Signal.contents_concat_clear]
      · have hclears : (Signal.clear i).clears id = false := by simp [Signal.clears, h]
        rw [Signal.contents_concat hclears]
        simp [see, h, Signal.lineTo?, Text.ofLines]
  | standard => cases s <;> simp [after, see, print, clear]
  | silent => cases s <;> simp [after, see, print, clear]

theorem Channel.see_of_target_ne {id : ChannelId} {s : Signal} (h : s.target? ≠ some id)
    (ch : Channel) : ch.see id s = ch := by
  cases s with
  | attach channel => rfl
  | line i text => exact if_neg fun hi => h (congrArg some hi)
  | clear i => exact if_neg fun hi => h (congrArg some hi)

/-! ### Consoles -/

namespace Console

def take (c : Console) : Signal → Console
  | .attach channel => (c.attach channel).2
  | .line id text => c.print id text
  | .clear id => c.clear id

def takeAll (c : Console) (log : List Signal) : Console := log.foldl take c

theorem takeAll_append (c : Console) (log more : List Signal) :
    c.takeAll (log ++ more) = (c.takeAll log).takeAll more := by
  simp only [takeAll, List.foldl_append]

theorem takeAll_concat (c : Console) (log : List Signal) (s : Signal) :
    c.takeAll (log ++ [s]) = (c.takeAll log).take s :=
  c.takeAll_append log [s]

theorem size_take (c : Console) (s : Signal) :
    (c.take s).channels.size = c.channels.size + s.attached?.toList.length := by
  cases s <;> simp [take, attach, print, clear, Signal.attached?]

/-- A signal changes at most the channel that it is sent to. -/
theorem getElem?_take {c : Console} {id : ChannelId} {ch : Channel}
    (hch : c.channels[id.index]? = some ch) (s : Signal) :
    (c.take s).channels[id.index]? = some (ch.see id s) := by
  have hne {i : ChannelId} (h : i ≠ id) : i.index ≠ id.index :=
    fun hi => h (congrArg ChannelId.mk hi)
  cases s with
  | attach channel =>
    obtain ⟨hlt, -⟩ := Array.getElem?_eq_some_iff.1 hch
    simp [take, attach, Channel.see, Array.getElem?_push, Nat.ne_of_lt hlt, hch]
  | line i text =>
    by_cases h : i = id
    · simp [take, print, Channel.see, Array.getElem?_modify, h, hch]
    · simp [take, print, Channel.see, Array.getElem?_modify, h, hne h, hch]
  | clear i =>
    by_cases h : i = id
    · simp [take, clear, Channel.see, Array.getElem?_modify, h, hch]
    · simp [take, clear, Channel.see, Array.getElem?_modify, h, hne h, hch]

theorem size_takeAll (log : List Signal) :
    (empty.takeAll log).channels.size = (Signal.attached log).length := by
  induction log using List.reverseRecOn with
  | nil => rfl
  | append_singleton log s ih =>
    rw [takeAll_concat, size_take, ih, Signal.attached_concat, List.length_append]

variable {log : List Signal} {id : ChannelId} {ch : Channel}

theorem getElem?_takeAll_of_target_ne {c : Console} (hch : c.channels[id.index]? = some ch)
    (h : ∀ s ∈ log, s.target? ≠ some id) : (c.takeAll log).channels[id.index]? = some ch := by
  induction log generalizing c with
  | nil => exact hch
  | cons s log ih =>
    obtain ⟨hs, hlog⟩ := List.forall_mem_cons.1 h
    have hstep := getElem?_take hch s
    rw [Channel.see_of_target_ne hs] at hstep
    exact ih hstep hlog

/-- A channel that is attached with nothing in it becomes what the log says. -/
theorem getElem?_takeAll (h : Signal.Deliverable 0 log)
    (hch : (Signal.attached log)[id.index]? = some ch) (hempty : ch.held = []) :
    (empty.takeAll log).channels[id.index]? = some (ch.after id log) := by
  induction log using List.reverseRecOn with
  | nil => simp [Signal.attached] at hch
  | append_singleton log s ih =>
    obtain ⟨hlog, -⟩ := Signal.deliverable_concat h
    rw [takeAll_concat, ← Channel.see_after]
    rw [Signal.attached_concat] at hch
    by_cases hid : id.index < (Signal.attached log).length
    · rw [List.getElem?_append_left hid] at hch
      exact getElem?_take (ih hlog hch) s
    · -- the last signal attaches the channel, to which nothing can have been sent before
      have hnone : Signal.contents id log = [] :=
        Signal.contents_eq_nil fun s hs ht => hid (hlog.target_lt hs ht)
      have hafter : ch.after id log = ch := by
        cases ch with
        | buffer held =>
          have hheld : held = [] := hempty
          rw [Channel.after, hnone, hheld]
        | _ => rfl
      cases s with
      | attach channel =>
        rw [List.getElem?_append_right (Nat.le_of_not_lt hid), Signal.attached?,
          Option.toList_some, List.getElem?_singleton] at hch
        split at hch
        · next hlast =>
          cases hch
          have hsize : id.index = (empty.takeAll log).channels.size := by
            rw [size_takeAll]
            omega
          rw [hafter]
          simp [take, attach, hsize, Channel.see]
        · cases hch
      | line i text => simp [Signal.attached?, Nat.le_of_not_lt hid] at hch
      | clear i => simp [Signal.attached?, Nat.le_of_not_lt hid] at hch

theorem map_isStandard_take (c : Console) (s : Signal) :
    (c.take s).channels.toList.map Channel.isStandard =
      c.channels.toList.map Channel.isStandard ++ s.attached?.toList.map Channel.isStandard := by
  have hmodify (f : Channel → Channel) (hf : ∀ ch, (f ch).isStandard = ch.isStandard) (i : Nat) :
      (c.channels.modify i f).toList.map Channel.isStandard =
        c.channels.toList.map Channel.isStandard := by
    apply List.ext_getElem?
    intro j
    simp only [List.getElem?_map, Array.getElem?_toList, Array.getElem?_modify]
    split
    · cases c.channels[j]? <;> simp [hf]
    · rfl
  cases s with
  | attach channel => simp [take, attach, Signal.attached?]
  | line i text =>
    have hkept := hmodify (Channel.print text) (Channel.isStandard_print text) i.index
    simpa [take, print, Signal.attached?] using hkept
  | clear i =>
    have hkept := hmodify Channel.clear Channel.isStandard_clear i.index
    simpa [take, clear, Signal.attached?] using hkept

/-- No signal makes a channel into one for standard output, or the reverse. -/
theorem map_isStandard_takeAll (log : List Signal) :
    (empty.takeAll log).channels.toList.map Channel.isStandard =
      (Signal.attached log).map Channel.isStandard := by
  induction log using List.reverseRecOn with
  | nil => rfl
  | append_singleton log s ih =>
    rw [takeAll_concat, map_isStandard_take, ih, Signal.attached_concat, List.map_append]

theorem echo_takeAll (log : List Signal) (id : ChannelId) (text : Text) :
    ((empty.takeAll log).channels[id.index]?.map (Channel.echo text)).getD [] =
      if Signal.standardAmong (Signal.attached log) id = true then text ++ ['\n'] else [] := by
  rw [Signal.standardAmong, ← List.getElem?_map, ← map_isStandard_takeAll, List.getElem?_map,
    Array.getElem?_toList]
  cases (empty.takeAll log).channels[id.index]? with
  | none => rfl
  | some ch => exact ch.echo_eq text

/-- Standard output shows the lines to channels that stand for it, and nothing else. -/
theorem standard_takeAll (h : Signal.Deliverable 0 log) :
    (empty.takeAll log).standard =
      Text.ofLines (Signal.linesTo (Signal.standardAmong (Signal.attached log)) log) := by
  induction log using List.reverseRecOn with
  | nil => rfl
  | append_singleton log s ih =>
    obtain ⟨hlog, -⟩ := Signal.deliverable_concat h
    have hold : Signal.linesTo (Signal.standardAmong (Signal.attached (log ++ [s]))) log =
        Signal.linesTo (Signal.standardAmong (Signal.attached log)) log := by
      refine List.filterMap_congr fun s' hs => ?_
      cases s' with
      | line i text =>
        have hlt : i.index < (Signal.attached log).length := hlog.target_lt hs rfl
        have hkept : Signal.standardAmong (Signal.attached (log ++ [s])) i =
            Signal.standardAmong (Signal.attached log) i := by
          rw [Signal.standardAmong, Signal.attached_concat, List.getElem?_append_left hlt,
            Signal.standardAmong]
        simp only [Signal.lineTo?, hkept]
      | _ => rfl
    rw [takeAll_concat, Signal.linesTo_concat, Text.ofLines_append, hold, ← ih hlog]
    cases s with
    | attach channel => simp [take, attach, Signal.lineTo?, Text.ofLines]
    | line i text =>
      have hattached : Signal.attached (log ++ [.line i text]) = Signal.attached log := by
        simp [Signal.attached_concat, Signal.attached?]
      simp only [take, print, echo_takeAll, hattached, Signal.lineTo?]
      split
      · rw [Option.toList_some, Text.ofLines_singleton]
      · rfl
    | clear i => simp [take, clear, Signal.lineTo?, Text.ofLines]

end Console

/-! ### Requests -/

namespace Request

/-- What a request tells the console. Of the builtins, only `puts` tells it anything:
the text of each argument, in the order of the arguments. -/
def signals : Request → List Signal
  | .attach channel => [.attach channel]
  | .print id line => [.line id line]
  | .clear id => [.clear id]
  | .call id .puts args => args.map fun v => .line id v.render
  | _ => []

/-- The channels that a request works on. -/
def channels : Request → List ChannelId
  | .print id _ | .clear id | .call id _ _ => [id]
  | _ => []

theorem mem_channels_of_signals {r : Request} {s : Signal} {id : ChannelId} (hs : s ∈ r.signals)
    (hid : s.target? = some id) : id ∈ r.channels := by
  cases r with
  | attach channel =>
    cases List.mem_singleton.1 hs
    cases hid
  | print i line =>
    cases List.mem_singleton.1 hs
    cases hid
    exact List.mem_cons_self
  | clear i =>
    cases List.mem_singleton.1 hs
    cases hid
    exact List.mem_cons_self
  | call i b args =>
    cases b with
    | puts =>
      obtain ⟨v, -, rfl⟩ := List.mem_map.1 hs
      cases hid
      exact List.mem_cons_self
    | _ => cases hs
  | _ => cases hs

end Request

namespace Store

theorem newAnswer_console (st : Store) (a : Answer) : (st.newAnswer a).2.console = st.console := by
  cases a <;> rfl

theorem call_console (st : Store) (id : ChannelId) (b : Builtin) (args : List Value) :
    (st.call id b args).2.console =
      (b.lines args).foldl (fun c line => c.print id line) st.console := by
  rw [call, newAnswer_console, foldl_print]

theorem serve_console (st : Store) (r : Request) :
    (st.serve r).2.console = st.console.takeAll r.signals := by
  cases r with
  | hash pairs =>
    simp only [serve, newHash]
    cases entriesOfPairs pairs <;> rfl
  | activate c args =>
    by_cases hl : args.length = c.params.length
    · simp only [serve, activate, if_pos hl]
      rfl
    · simp only [serve, activate, if_neg hl]
      rfl
  | register e =>
    rw [serve, register]
    rfl
  | call id b args =>
    refine (call_console st id b args).trans ?_
    cases b with
    | puts =>
      rw [Console.takeAll, Request.signals, Builtin.lines, if_pos rfl, List.foldl_map,
        List.foldl_map]
      rfl
    | _ => rfl
  | _ => rfl

theorem serveAll_console (st : Store) (rs : List Request) :
    (st.serveAll rs).console = st.console.takeAll (rs.flatMap Request.signals) := by
  induction rs generalizing st with
  | nil => rfl
  | cons r rs ih =>
    rw [serveAll_cons, ih, serve_console, List.flatMap_cons, Console.takeAll_append]

theorem serve_held {st : Store} {r : Request} {id : ChannelId}
    (hid : id.index < st.console.channels.size) (hr : id ∉ r.channels) :
    (st.serve r).2.console.held id = st.console.held id := by
  have hch : st.console.channels[id.index]? = some st.console.channels[id.index] :=
    Array.getElem?_eq_getElem hid
  have hkept := Console.getElem?_takeAll_of_target_ne hch fun s hs ht =>
    hr (Request.mem_channels_of_signals hs ht)
  rw [Console.held, serve_console, hkept, Console.held, hch]

/-- After any run of requests, in which lines and clearings go to channels that are
attached by then, a buffer holds the lines that were sent to it since it was last
cleared, and the other channels hold nothing. Standard output shows all lines that
were sent to channels for it. The next request leaves what a channel holds as it is
unless it works on this channel, and a builtin other than `puts` leaves the whole
console as it is. Channels are numbered as they are attached. The arguments of a call may
list the entries of a hash in any order, and its lines show the order that they have. -/
theorem output_is_exact_log {rs : List Request}
    (h : Signal.Deliverable 0 (rs.flatMap Request.signals)) :
    let st := empty.serveAll rs
    let log := rs.flatMap Request.signals
    (∀ channel, (st.attach channel).1.index = (Signal.attached log).length) ∧
    (∀ id : ChannelId, (Signal.attached log)[id.index]? = some (.buffer []) →
      st.console.held id = Text.ofLines (Signal.linesTo (· == id) (Signal.sinceClear id log))) ∧
    (∀ id : ChannelId, (Signal.attached log)[id.index]? = some .standard ∨
      (Signal.attached log)[id.index]? = some .silent → st.console.held id = []) ∧
    st.console.standard =
      Text.ofLines (Signal.linesTo (Signal.standardAmong (Signal.attached log)) log) ∧
    (∀ (r : Request) (id : ChannelId), id.index < (Signal.attached log).length →
      id ∉ r.channels → (st.serve r).2.console.held id = st.console.held id) ∧
    ∀ (id : ChannelId) (b : Builtin) (args : List Value), b ≠ .puts →
      (st.call id b args).2.console = st.console := by
  intro st log
  have hconsole : st.console = Console.empty.takeAll log := serveAll_console empty rs
  have hsize : st.console.channels.size = (Signal.attached log).length := by
    rw [hconsole, Console.size_takeAll]
  have hheld {id : ChannelId} {ch : Channel} (hch : (Signal.attached log)[id.index]? = some ch)
      (hempty : ch.held = []) : st.console.held id = (ch.after id log).held := by
    rw [Console.held, hconsole, Console.getElem?_takeAll h hch hempty]
    rfl
  refine ⟨fun _ => hsize, fun id hid => hheld hid rfl, ?_, ?_, ?_, ?_⟩
  · rintro id (hid | hid)
    · exact hheld hid rfl
    · exact hheld hid rfl
  · rw [hconsole, Console.standard_takeAll h]
  · intro r id hid hr
    exact serve_held (hsize ▸ hid) hr
  · intro id b args hb
    rw [call_console, Builtin.lines, if_neg hb]
    rfl

/-- A buffer, standard output and a silent channel. Two registries print to the
buffer, which is cleared on the way, and a call of `len` fails. A hash is printed twice,
with its entries in the one and in the other order. -/
def babble : List Request :=
  let p : Entry Value := ⟨⟨.int, 1⟩, .int 1, .bool true⟩
  let q : Entry Value := ⟨⟨.int, 2⟩, .int 2, .null⟩
  [.attach (.buffer []), .attach .standard, .attach .silent, .call ⟨0⟩ .puts [.int 1, .null],
   .print ⟨1⟩ ['a'], .clear ⟨0⟩, .call ⟨0⟩ .puts [.bool true, .hash ⟨0⟩ [p, q]],
   .call ⟨0⟩ .len [], .clear ⟨1⟩, .print ⟨2⟩ ['b'], .print ⟨0⟩ ['c'],
   .call ⟨1⟩ .puts [.hash ⟨0⟩ [q, p]]]

theorem babble_is_logged :
    Signal.Deliverable 0 (babble.flatMap Request.signals) ∧
      (empty.serveAll babble).console.held ⟨0⟩ =
        "true\n\x7b1: true, 2: null\x7d\nc\n".toList ∧
      (empty.serveAll babble).console.held ⟨2⟩ = [] ∧
      (empty.serveAll babble).console.standard = "a\n\x7b2: null, 1: true\x7d\n".toList := by
  have h : Signal.Deliverable 0 (babble.flatMap Request.signals) := by decide
  obtain ⟨-, hbuffer, hother, hstandard, -⟩ := output_is_exact_log h
  exact ⟨h, hbuffer ⟨0⟩ rfl, hother ⟨2⟩ (Or.inr rfl), hstandard⟩

end Store

end Scriptlet
