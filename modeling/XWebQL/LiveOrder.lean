import XWebQL.LiveSession

/-! What the client makes of the answers.
The numbers of the answers stand in one line, from the spectra that were plotted over
the stack and the messages on their way to the requests that wait. Only a request
brings in a new number, at the end. Writers change the order of the line when
several of them are at work; without that it stays sorted. -/

namespace XWebQL.LiveOrder

open Transition LiveMessages LiveSession
open Utf8 (latin1 encode)

variable {R S : Type} {m : Session R S} {s t : State R S} {a : Action R} {c : Client S}

section Client

@[simp] theorem again_sent (c : Client S) : c.again.sent_seq_id = c.sent_seq_id := by
  rw [Client.again]
  split_ifs <;> rfl

@[simp] theorem again_last (c : Client S) : c.again.last_seq_id = c.last_seq_id := by
  rw [Client.again]
  split_ifs <;> rfl

@[simp] theorem again_stack (c : Client S) : c.again.spectrum_stack = c.spectrum_stack := by
  rw [Client.again]
  split_ifs <;> rfl

@[simp] theorem again_plotted (c : Client S) : c.again.plotted = c.plotted := by
  rw [Client.again]
  split_ifs <;> rfl

@[simp] theorem again_shown (c : Client S) : c.again.shown = c.shown := by
  rw [Client.again]
  split_ifs <;> rfl

@[simp] theorem again_windowLeft (c : Client S) : c.again.windowLeft = c.windowLeft := by
  rw [Client.again]
  split_ifs with h
  · rfl
  · rfl

/-- A message is without effect, or its spectrum goes on the stack, or its view is shown. -/
theorem handle_cases (m : Session R S) (c : Client S) (r : ℕ × ℕ × Received) :
    c.handle m r = c ∨
    (∃ text spectrum, r.2.2 = .spectrum text ∧ m.parse text = some spectrum ∧
      c.windowLeft = false ∧
      c.handle m r = { c with spectrum_stack := (r.2.1, spectrum) :: c.spectrum_stack }) ∨
    ∃ view, r.2.2 = .viewport view ∧
      c.handle m r = { c with shown := c.shown ++ [(r.2.1, view)] } := by
  rw [Client.handle.eq_def]
  split
  next _ id text =>
    split
    next bin bins hparse =>
      split_ifs with hleft
      · exact Or.inl rfl
      · exact Or.inr (Or.inl ⟨text, bin :: bins, rfl, hparse, Bool.eq_false_iff.mpr hleft, rfl⟩)
    next => exact Or.inl rfl
  next _ id view =>
    split_ifs
    · exact Or.inl rfl
    · exact Or.inr (Or.inr ⟨view, rfl, rfl⟩)
  next => exact Or.inl rfl

theorem update_plot {top : ℕ × List S} {rest : List (ℕ × List S)}
    (hstack : c.spectrum_stack = top :: rest) (hnew : c.last_seq_id < top.1) :
    c.update_spectrum = { c with
      last_seq_id := top.1, spectrum_stack := [], plotted := c.plotted ++ [top] }.again := by
  rw [Client.update_spectrum.eq_def, hstack]
  exact if_neg (Nat.not_le_of_lt hnew)

theorem update_cases (c : Client S) : c.update_spectrum = c.again ∨
    ∃ top rest, c.spectrum_stack = top :: rest ∧ c.last_seq_id < top.1 ∧
      c.update_spectrum = { c with
        last_seq_id := top.1, spectrum_stack := [], plotted := c.plotted ++ [top] }.again := by
  cases hstack : c.spectrum_stack with
  | nil =>
    rw [Client.update_spectrum.eq_def, hstack]
    exact Or.inl rfl
  | cons top rest =>
    by_cases hnew : c.last_seq_id < top.1
    · exact Or.inr ⟨top, rest, rfl, hnew, update_plot hstack hnew⟩
    · rw [Client.update_spectrum.eq_def, hstack]
      exact Or.inl (if_pos (Nat.le_of_not_lt hnew))

end Client

section Steps

def isRemote : Action R → Bool
  | .push | .take | .answer _ | .fail | .put _ | .other _ _ | .send => true
  | _ => false

theorem client_of_remote (ha : isRemote a = true) (h : step m s a = some t) :
    t.client = s.client ∧ t.requests = s.requests := by
  cases a with
  | push | take | answer | put | other | send =>
    simp only [step, Option.map_eq_some_iff, Option.ite_none_right_eq_some] at h
    grind
  | fail =>
    obtain rfl := Option.some.inj h
    exact ⟨rfl, rfl⟩
  | _ => cases ha

theorem receive_step (h : step m s .receive = some t) : ∃ bytes down,
    s.down = bytes :: down ∧ t = { s with
      down := down, client := (receive m.codec bytes).elim s.client (s.client.handle m) } := by
  simp only [step] at h
  split at h
  · cases h
  next bytes down hdown => exact ⟨bytes, down, hdown, (Option.some.inj h).symm⟩

theorem update_step (h : step m s .update_spectrum = some t) :
    t = { s with client := s.client.update_spectrum } := by
  simp only [step] at h
  split at h
  · cases h
  · exact (Option.some.inj h).symm

theorem handle_sent (m : Session R S) (c : Client S) (r : ℕ × ℕ × Received) :
    (c.handle m r).sent_seq_id = c.sent_seq_id := by
  rcases handle_cases m c r with h | ⟨text, spectrum, -, -, -, h⟩ | ⟨view, -, h⟩ <;> rw [h]

theorem update_sent (c : Client S) : c.update_spectrum.sent_seq_id = c.sent_seq_id := by
  rcases update_cases c with h | ⟨top, rest, -, -, h⟩ <;> rw [h, again_sent]

theorem sent_le (h : step m s a = some t) : s.client.sent_seq_id ≤ t.client.sent_seq_id := by
  by_cases hremote : isRemote a = true
  · rw [(client_of_remote hremote h).1]
  · cases a with
    | push | take | answer | put | other | send | fail => exact absurd rfl hremote
    | mouseenter | mouseleave | mousemove | imageTimeout | setStreaming | unsent | request =>
      obtain rfl := Option.some.inj h
      first
        | exact le_rfl
        | exact Nat.le_succ _
    | receive =>
      obtain ⟨bytes, down, -, rfl⟩ := receive_step h
      cases hread : receive m.codec bytes with
      | none => exact le_rfl
      | some r => exact (handle_sent m s.client r).ge
    | update_spectrum =>
      rw [update_step h]
      exact (update_sent s.client).ge

end Steps

section Line

def spectrumLine (m : Session R S) (s : State R S) : List ℕ :=
  s.client.plotted.map Prod.fst ++
    ((s.client.spectrum_stack.map Prod.fst).reverse ++ inFlight m isSpectrum s)

def viewLine (m : Session R S) (s : State R S) : List ℕ :=
  s.client.shown.map Prod.fst ++ inFlight m isView s

theorem spectrumLine_receive {bytes : List UInt8} {down : List (List UInt8)}
    (hdown : s.down = bytes :: down) : (spectrumLine m { s with
      down := down, client := (receive m.codec bytes).elim s.client (s.client.handle m) }).Sublist
        (spectrumLine m s) := by
  rw [spectrumLine, spectrumLine, inFlight_receive hdown, messageNumber]
  have hlater : ∀ number : List ℕ, (inFlight m isSpectrum { s with down := down }).Sublist
      (number ++ inFlight m isSpectrum { s with down := down }) :=
    fun number => List.sublist_append_right number _
  cases hread : receive m.codec bytes with
  | none => exact List.Sublist.refl _
  | some r =>
    dsimp only [Option.elim_some]
    rcases handle_cases m s.client r with h | ⟨text, spectrum, hkind, -, -, h⟩ | ⟨view, -, h⟩
    · rw [h]
      exact (List.Sublist.refl _).append ((List.Sublist.refl _).append (hlater _))
    · rw [h]
      simp [hkind, isSpectrum, Option.filter, inFlight]
    · rw [h]
      exact (List.Sublist.refl _).append ((List.Sublist.refl _).append (hlater _))

theorem spectrumLine_stack {top : ℕ × List S} {rest : List (ℕ × List S)}
    (hstack : s.client.spectrum_stack = top :: rest) : spectrumLine m s =
      s.client.plotted.map Prod.fst ++
        ((rest.map Prod.fst).reverse ++ ([top.1] ++ inFlight m isSpectrum s)) := by
  simp [spectrumLine, hstack]

theorem spectrumLine_plot {top : ℕ × List S} {rest : List (ℕ × List S)}
    (hstack : s.client.spectrum_stack = top :: rest) (hnew : s.client.last_seq_id < top.1) :
    spectrumLine m { s with client := s.client.update_spectrum } =
      s.client.plotted.map Prod.fst ++ ([top.1] ++ inFlight m isSpectrum s) := by
  rw [update_plot hstack hnew, spectrumLine, again_plotted, again_stack]
  simp [inFlight]

theorem spectrumLine_update (s : State R S) :
    (spectrumLine m { s with client := s.client.update_spectrum }).Sublist (spectrumLine m s) := by
  rcases update_cases s.client with h | ⟨top, rest, hstack, hnew, -⟩
  · rw [h, spectrumLine, spectrumLine, again_plotted, again_stack]
    exact List.Sublist.refl _
  · rw [spectrumLine_stack hstack, spectrumLine_plot hstack hnew]
    exact (List.Sublist.refl _).append (List.sublist_append_right _ _)

theorem spectrumLine_step (h : step m s a = some t)
    (hreq : ∀ timestamp image region, a ≠ .request timestamp image region) :
    Keeps s (spectrumLine m s) (spectrumLine m t) := by
  have hflight := inFlight_step counted_spectrum h hreq
  by_cases hremote : isRemote a = true
  · rw [spectrumLine, spectrumLine, (client_of_remote hremote h).1]
    exact (hflight.append_left _).append_left _
  · cases a with
    | push | take | answer | put | other | send | fail => exact absurd rfl hremote
    | request timestamp image region => exact absurd rfl (hreq timestamp image region)
    | mouseenter | mouseleave =>
      obtain rfl := Option.some.inj h
      refine Keeps.of_sublist ((List.Sublist.refl _).append ?_)
      exact (List.nil_sublist _).append (List.Sublist.refl _)
    | mousemove | imageTimeout | setStreaming | unsent =>
      obtain rfl := Option.some.inj h
      exact Keeps.refl _
    | receive =>
      obtain ⟨bytes, down, hdown, rfl⟩ := receive_step h
      exact Keeps.of_sublist (spectrumLine_receive hdown)
    | update_spectrum =>
      rw [update_step h]
      exact Keeps.of_sublist (spectrumLine_update s)

theorem spectrumLine_request {timestamp : UInt32} {image : Bool} {region : R}
    (h : step m s (.request timestamp image region) = some t) :
    spectrumLine m t = spectrumLine m s ++ [t.client.sent_seq_id] := by
  have hflight := inFlight_request isSpectrum h
  obtain rfl := Option.some.inj h
  rw [spectrumLine, spectrumLine, hflight, List.append_assoc, List.append_assoc]
  rfl

theorem viewLine_receive {bytes : List UInt8} {down : List (List UInt8)}
    (hdown : s.down = bytes :: down) : (viewLine m { s with
      down := down, client := (receive m.codec bytes).elim s.client (s.client.handle m) }).Sublist
        (viewLine m s) := by
  rw [viewLine, viewLine, inFlight_receive hdown, messageNumber]
  have hlater : ∀ number : List ℕ, (inFlight m isView { s with down := down }).Sublist
      (number ++ inFlight m isView { s with down := down }) :=
    fun number => List.sublist_append_right number _
  cases hread : receive m.codec bytes with
  | none => exact List.Sublist.refl _
  | some r =>
    dsimp only [Option.elim_some]
    rcases handle_cases m s.client r with h | ⟨text, spectrum, -, -, -, h⟩ | ⟨view, hkind, h⟩
    · rw [h]
      exact (List.Sublist.refl _).append (hlater _)
    · rw [h]
      exact (List.Sublist.refl _).append (hlater _)
    · rw [h]
      simp [hkind, isView, Option.filter, inFlight]

theorem update_shown (c : Client S) : c.update_spectrum.shown = c.shown := by
  rcases update_cases c with h | ⟨top, rest, -, -, h⟩ <;> rw [h, again_shown]

theorem viewLine_step (h : step m s a = some t)
    (hreq : ∀ timestamp image region, a ≠ .request timestamp image region) :
    Keeps s (viewLine m s) (viewLine m t) := by
  have hflight := inFlight_step counted_view h hreq
  by_cases hremote : isRemote a = true
  · rw [viewLine, viewLine, (client_of_remote hremote h).1]
    exact hflight.append_left _
  · cases a with
    | push | take | answer | put | other | send | fail => exact absurd rfl hremote
    | request timestamp image region => exact absurd rfl (hreq timestamp image region)
    | mouseenter | mouseleave | mousemove | imageTimeout | setStreaming | unsent =>
      obtain rfl := Option.some.inj h
      exact Keeps.refl _
    | receive =>
      obtain ⟨bytes, down, hdown, rfl⟩ := receive_step h
      exact Keeps.of_sublist (viewLine_receive hdown)
    | update_spectrum =>
      rw [update_step h]
      refine Keeps.of_eq ?_
      rw [viewLine, viewLine, update_shown]
      rfl

theorem viewLine_request {timestamp : UInt32} {image : Bool} {region : R}
    (h : step m s (.request timestamp image region) = some t) :
    viewLine m t = viewLine m s ++ [t.client.sent_seq_id] := by
  have hflight := inFlight_request isView h
  obtain rfl := Option.some.inj h
  rw [viewLine, viewLine, hflight, List.append_assoc]
  rfl

end Line

section Numbers

def Numbered (l : List ℕ) (n : ℕ) : Prop := l.Nodup ∧ ∀ id ∈ l, id ≤ n

def Ordered (l : List ℕ) (n : ℕ) : Prop := l.Pairwise (· < ·) ∧ ∀ id ∈ l, id ≤ n

variable {l l' : List ℕ} {n n' : ℕ}

theorem Numbered.subperm (hl : Numbered l n) (hsub : l'.Subperm l) (hle : n ≤ n') :
    Numbered l' n' := by
  obtain ⟨l'', hperm, hsublist⟩ := hsub
  refine ⟨hperm.nodup_iff.mp (hl.1.sublist hsublist), fun id hid => ?_⟩
  exact (hl.2 id (hsublist.subset (hperm.mem_iff.mpr hid))).trans hle

theorem Numbered.next (hl : Numbered l n) (hlt : n < n') : Numbered (l ++ [n']) n' := by
  have hnew : n' ∉ l := fun hmem => absurd (hl.2 _ hmem) (Nat.not_le_of_lt hlt)
  refine ⟨List.Nodup.append hl.1 (List.nodup_singleton _) (by simpa using hnew), fun id hid => ?_⟩
  rcases List.mem_append.mp hid with h | h
  · exact (hl.2 id h).trans hlt.le
  · exact (List.mem_singleton.mp h).le

theorem Ordered.sublist (hl : Ordered l n) (hsub : l'.Sublist l) (hle : n ≤ n') :
    Ordered l' n' :=
  ⟨hl.1.sublist hsub, fun id hid => (hl.2 id (hsub.subset hid)).trans hle⟩

theorem Ordered.next (hl : Ordered l n) (hlt : n < n') : Ordered (l ++ [n']) n' := by
  refine ⟨List.pairwise_append.mpr ⟨hl.1, List.pairwise_singleton _ _, ?_⟩, fun id hid => ?_⟩
  · intro id hid k hk
    rw [List.mem_singleton.mp hk]
    exact (hl.2 id hid).trans_lt hlt
  · rcases List.mem_append.mp hid with h | h
    · exact (hl.2 id h).trans hlt.le
    · exact (List.mem_singleton.mp h).le

theorem numbered_step {line : State R S → List ℕ}
    (hstep : (∀ timestamp image region, a ≠ .request timestamp image region) →
      Keeps s (line s) (line t))
    (hnext : ∀ timestamp image region, a = .request timestamp image region →
      line t = line s ++ [t.client.sent_seq_id])
    (h : step m s a = some t) (hs : Numbered (line s) s.client.sent_seq_id) :
    Numbered (line t) t.client.sent_seq_id := by
  by_cases hreq : ∃ timestamp image region, a = .request timestamp image region
  · obtain ⟨timestamp, image, region, rfl⟩ := hreq
    rw [hnext timestamp image region rfl]
    obtain rfl := Option.some.inj h
    exact hs.next (Nat.lt_succ_self _)
  · have hother := hstep fun timestamp image region heq => hreq ⟨timestamp, image, region, heq⟩
    exact hs.subperm hother.subperm (sent_le h)

def Plots (c : Client S) : Prop :=
  Ordered (c.plotted.map Prod.fst) c.last_seq_id ∧ (c.windowLeft = true → c.spectrum_stack = [])

theorem plots_handle (hc : Plots c) (r : ℕ × ℕ × Received) : Plots (c.handle m r) := by
  rcases handle_cases m c r with h | ⟨text, spectrum, -, -, hleft, h⟩ | ⟨view, -, h⟩
  · rwa [h]
  · rw [h]
    exact ⟨hc.1, fun heq => absurd (hleft.symm.trans heq) Bool.false_ne_true⟩
  · rw [h]
    exact hc

theorem plots_update (hc : Plots c) : Plots c.update_spectrum := by
  rcases update_cases c with h | ⟨top, rest, -, hlt, h⟩
  · rw [h]
    simpa [Plots] using hc
  · rw [h]
    refine ⟨?_, fun _ => ?_⟩
    · rw [again_plotted, again_last, List.map_append]
      exact hc.1.next hlt
    · rw [again_stack]

theorem plots_step (h : step m s a = some t) (hs : Plots s.client) : Plots t.client := by
  by_cases hremote : isRemote a = true
  · rwa [(client_of_remote hremote h).1]
  · cases a with
    | push | take | answer | put | other | send | fail => exact absurd rfl hremote
    | mouseenter | mouseleave =>
      obtain rfl := Option.some.inj h
      exact ⟨hs.1, fun _ => rfl⟩
    | mousemove =>
      obtain rfl := Option.some.inj h
      exact ⟨hs.1, fun heq => absurd heq Bool.false_ne_true⟩
    | imageTimeout | setStreaming | unsent | request =>
      obtain rfl := Option.some.inj h
      exact hs
    | receive =>
      obtain ⟨bytes, down, -, rfl⟩ := receive_step h
      cases hread : receive m.codec bytes with
      | none => exact hs
      | some r => exact plots_handle hs r
    | update_spectrum =>
      rw [update_step h]
      exact plots_update hs

structure Inv (m : Session R S) (s : State R S) : Prop where
  spectra : Numbered (spectrumLine m s) s.client.sent_seq_id
  views : Numbered (viewLine m s) s.client.sent_seq_id
  plots : Plots s.client

theorem inv_init (m : Session R S) : Inv m (system m).init where
  spectra := ⟨List.nodup_nil, List.forall_mem_nil _⟩
  views := ⟨List.nodup_nil, List.forall_mem_nil _⟩
  plots := ⟨⟨List.Pairwise.nil, List.forall_mem_nil _⟩, fun _ => rfl⟩

theorem inv_step (h : step m s a = some t) (hs : Inv m s) : Inv m t where
  spectra := numbered_step (spectrumLine_step h)
    (fun _ _ _ heq => spectrumLine_request (heq ▸ h)) h hs.spectra
  views := numbered_step (viewLine_step h)
    (fun _ _ _ heq => viewLine_request (heq ▸ h)) h hs.views
  plots := plots_step h hs.plots

theorem Inv.of_reachable (hs : Reachable (system m) s) : Inv m s :=
  hs.invariant (Inv m) (inv_init m) fun _ _ _ hinv _ h => inv_step h hinv

end Numbers

section Lost

theorem not_mem_line {id : ℕ} {u : State R S} (ht : id ∉ spectrumLine m t)
    (hle : id ≤ t.client.sent_seq_id) (hu : Reachable ⟨t, step m⟩ u) :
    id ∉ spectrumLine m u := by
  have hinv := hu.invariant (fun u => id ∉ spectrumLine m u ∧ id ≤ u.client.sent_seq_id)
    ⟨ht, hle⟩ ?_
  · exact hinv.1
  · intro s a t hs _ h
    refine ⟨fun hmem => ?_, hs.2.trans (sent_le h)⟩
    by_cases hreq : ∃ timestamp image region, a = .request timestamp image region
    · obtain ⟨timestamp, image, region, rfl⟩ := hreq
      rw [spectrumLine_request h, List.mem_append, List.mem_singleton] at hmem
      rcases hmem with hmem | heq
      · exact hs.1 hmem
      · obtain rfl := Option.some.inj h
        exact absurd hs.2 (by rw [heq]; exact Nat.not_succ_le_self _)
    · have hkeeps := spectrumLine_step h fun timestamp image region heq =>
        hreq ⟨timestamp, image, region, heq⟩
      exact hs.1 (hkeeps.subperm.subset hmem)

def oneRegion : Session Unit Unit where
  codec := ⟨id, fun bytes => some (Utf8.latin1 bytes)⟩
  viewport _ := ⟨1, 1, [0], [1], 0, 1, List.forall_mem_singleton.mpr (Or.inr rfl)⟩
  spectrum _ := ['[', ']']
  parse _ := some [()]
  masks _ := rfl
  texts _ := rfl

def overtaking : List (Action Unit) :=
  [.mouseenter, .request 0 false (), .request 0 false (), .push, .push, .take, .answer 0, .take,
    .answer 0, .put 1, .put 0, .send, .send, .receive, .receive]

/-- When a frame plots the top of the stack, the spectra under it are lost, the newer
ones that were overtaken as well. -/
theorem overtaken_lost {u : State R S} {top : ℕ × List S} {rest : List (ℕ × List S)}
    (hs : Reachable (system m) s) (hstack : s.client.spectrum_stack = top :: rest)
    (hnew : s.client.last_seq_id < top.1) (h : step m s .update_spectrum = some t)
    (hu : Reachable ⟨t, step m⟩ u) : ∀ p ∈ rest, p.1 ∉ u.client.plotted.map Prod.fst := by
  intro p hp hmem
  have hinv := Inv.of_reachable hs
  have hwaits : p.1 ∈ (rest.map Prod.fst).reverse :=
    List.mem_reverse.mpr (List.mem_map_of_mem hp)
  have hold := spectrumLine_stack (m := m) hstack
  have hgone : p.1 ∉ spectrumLine m t := by
    have hnodup := hinv.spectra.1
    rw [hold, List.nodup_append] at hnodup
    rw [update_step h, spectrumLine_plot hstack hnew, List.mem_append]
    rintro (hplotted | hlater)
    · exact hnodup.2.2 p.1 hplotted p.1 (List.mem_append_left _ hwaits) rfl
    · exact (List.nodup_append.mp hnodup.2.1).2.2 p.1 hwaits p.1 hlater rfl
  have hle : p.1 ≤ t.client.sent_seq_id := by
    refine (hinv.spectra.2 p.1 ?_).trans (sent_le h)
    rw [hold]
    exact List.mem_append_right _ (List.mem_append_left _ hwaits)
  refine not_mem_line hgone hle hu ?_
  rw [spectrumLine]
  exact List.mem_append_left _ hmem

theorem overtaken_lost_example : ∃ s t : State Unit Unit,
    s.client.spectrum_stack = [(2, [()]), (3, [()])] ∧
      step oneRegion s .update_spectrum = some t ∧
      ∀ p ∈ [(3, [()])], p.1 ∉ t.client.plotted.map Prod.fst := by
  have hs := reachable_exec (system oneRegion) overtaking (by decide)
  have hstack : (((system oneRegion).exec (fun _ _ => True) (system oneRegion).init overtaking).get
      (by decide)).client.spectrum_stack = [(2, [()]), (3, [()])] := by decide
  refine ⟨_, _, hstack, rfl, overtaken_lost hs hstack (by decide) rfl Reach.start⟩

end Lost

section Alone

def isAnswer : Action R → Bool
  | .answer _ => true
  | _ => false

/-- No answer is written beside another one. -/
def Alone (s : State R S) (a : Action R) : Prop :=
  ∀ elapsed, a = .answer elapsed → s.server.writers = []

instance decidableAlone (s : State R S) (a : Action R) : Decidable (Alone s a) :=
  decidable_of_iff (isAnswer a = true → s.server.writers.isEmpty = true) (by
    cases a <;> simp [Alone, isAnswer])

theorem writers_put {i : ℕ} {server : Server R} (hput : s.server.put m i = some server) :
    server.writers.length ≤ s.server.writers.length := by
  rw [Server.put] at hput
  split at hput
  · split at hput
    · obtain rfl := Option.some.inj hput
      exact (List.eraseIdx_sublist _ _).length_le
    · split at hput
      · obtain rfl := Option.some.inj hput
        dsimp only
        split_ifs
        · exact (List.eraseIdx_sublist _ _).length_le
        · exact (List.length_set ..).le
      · cases hput
  · cases hput

theorem writers_step (h : step m s a = some t) (ha : Alone s a)
    (hs : s.server.writers.length ≤ 1) : t.server.writers.length ≤ 1 := by
  cases a with
  | answer elapsed =>
    obtain ⟨req, -, rfl⟩ := Option.map_eq_some_iff.mp h
    simp [ha elapsed rfl]
  | put i =>
    obtain ⟨server, hput, rfl⟩ := Option.map_eq_some_iff.mp h
    exact (writers_put hput).trans hs
  | _ =>
    simp only [step, Option.map_eq_some_iff, Option.ite_none_right_eq_some] at h
    grind

/-- The numbers in the line are sorted, and the last one that was plotted is known. -/
structure Sorted (m : Session R S) (s : State R S) : Prop where
  line : Ordered (0 :: spectrumLine m s) s.client.sent_seq_id
  last : s.client.last_seq_id ∈ 0 :: s.client.plotted.map Prod.fst
  alone : s.server.writers.length ≤ 1

theorem last_step (h : step m s a = some t)
    (hs : s.client.last_seq_id ∈ 0 :: s.client.plotted.map Prod.fst) :
    t.client.last_seq_id ∈ 0 :: t.client.plotted.map Prod.fst := by
  by_cases hremote : isRemote a = true
  · rwa [(client_of_remote hremote h).1]
  · cases a with
    | push | take | answer | put | other | send | fail => exact absurd rfl hremote
    | mouseenter | mouseleave | mousemove | imageTimeout | setStreaming | unsent | request =>
      obtain rfl := Option.some.inj h
      exact hs
    | receive =>
      obtain ⟨bytes, down, -, rfl⟩ := receive_step h
      cases hread : receive m.codec bytes with
      | none => exact hs
      | some r =>
        dsimp only [Option.elim_some]
        rcases handle_cases m s.client r with h | ⟨text, spectrum, -, -, -, h⟩ | ⟨view, -, h⟩ <;>
          rwa [h]
    | update_spectrum =>
      rw [update_step h]
      rcases update_cases s.client with h | ⟨top, rest, -, -, h⟩
      · simpa [h] using hs
      · simp [h]

theorem sorted_step (h : step m s a = some t) (ha : Alone s a) (hs : Sorted m s) : Sorted m t where
  line := by
    by_cases hreq : ∃ timestamp image region, a = .request timestamp image region
    · obtain ⟨timestamp, image, region, rfl⟩ := hreq
      rw [spectrumLine_request h, ← List.cons_append]
      obtain rfl := Option.some.inj h
      exact hs.line.next (Nat.lt_succ_self _)
    · have hkeeps := spectrumLine_step h fun timestamp image region heq =>
        hreq ⟨timestamp, image, region, heq⟩
      exact hs.line.sublist ((hkeeps.sublist hs.alone).cons_cons 0) (sent_le h)
  last := last_step h hs.last
  alone := writers_step h ha hs.alone

theorem sorted_init (m : Session R S) : Sorted m (system m).init where
  line := ⟨List.pairwise_singleton _ _, fun _ hid => (List.mem_singleton.mp hid).le⟩
  last := List.mem_cons_self
  alone := Nat.zero_le 1

theorem Sorted.of_reach (hs : Reach (system m) Alone s) : Sorted m s :=
  hs.invariant (Sorted m) (sorted_init m) fun _ _ _ hsorted ha h => sorted_step h ha hsorted

/-- When no answer is written beside another one, a frame plots the newest spectrum of
those that wait, and all that arrives later is newer still. -/
theorem newest_plotted (hs : Reach (system m) Alone s) {top : ℕ × List S}
    {rest : List (ℕ × List S)} (hstack : s.client.spectrum_stack = top :: rest)
    (h : step m s .update_spectrum = some t) :
    t.client.plotted = s.client.plotted ++ [top] ∧ (∀ p ∈ rest, p.1 < top.1) ∧
      ∀ id ∈ inFlight m isSpectrum t, top.1 < id := by
  have hsorted := Sorted.of_reach hs
  have hline := hsorted.line.1
  rw [spectrumLine_stack hstack, ← List.cons_append, List.pairwise_append] at hline
  obtain ⟨-, hrest, hplotted⟩ := hline
  rw [List.pairwise_append] at hrest
  obtain ⟨-, htop, hwaits⟩ := hrest
  have hmem : top.1 ∈ [top.1] ++ inFlight m isSpectrum s := List.mem_cons_self
  have hnew : s.client.last_seq_id < top.1 :=
    hplotted _ hsorted.last _ (List.mem_append_right _ hmem)
  rw [update_step h]
  refine ⟨?_, fun p hp => ?_, ?_⟩
  · rw [update_plot hstack hnew, again_plotted]
  · exact hwaits p.1 (List.mem_reverse.mpr (List.mem_map_of_mem hp)) top.1 hmem
  · exact (List.pairwise_cons.mp htop).1

def inTurn : List (Action Unit) :=
  [.mouseenter, .request 0 false (), .request 0 false (), .push, .push, .take, .answer 0, .put 0,
    .take, .answer 0, .put 0, .send, .send, .receive, .receive]

theorem newest_plotted_example : ∃ s t : State Unit Unit,
    s.client.spectrum_stack = [(3, [()]), (2, [()])] ∧
      step oneRegion s .update_spectrum = some t ∧
      t.client.plotted = s.client.plotted ++ [(3, [()])] := by
  have hs := reach_exec (system oneRegion) Alone inTurn (by decide)
  have hstack : (((system oneRegion).exec Alone (system oneRegion).init inTurn).get
      (by decide)).client.spectrum_stack = [(3, [()]), (2, [()])] := by decide
  refine ⟨_, _, hstack, rfl, (newest_plotted hs hstack rfl).1⟩

end Alone

end XWebQL.LiveOrder
