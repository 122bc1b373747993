import ExprBackend.Text.Ranges

/-! # Classes of characters

Quoted texts and identifiers tell characters apart by their class. The classes are
unions of the general categories of Unicode 17.0.
-/

namespace ExprBackend.Text

inductive CharClass where
  /-- Letters and letter numbers. -/
  | letter
  /-- Combining marks, decimal digits and connector punctuation. -/
  | mark
  /-- Other numbers, other punctuation, symbols and the blank. -/
  | symbol
  /-- All other characters. -/
  | other
  deriving DecidableEq

namespace CharClass

def ofLetter? : Char → Option CharClass
  | 'l' => some .letter
  | 'm' => some .mark
  | 'p' => some .symbol
  | 'x' => some .other
  | _ => none

/-- Code points one after the other that are of one class. -/
structure Run where
  first : Nat
  last : Nat
  kind : CharClass

/-- Reads runs, from code point zero on. A run is written as its length, a hexadecimal number that
is left out if it is one, with the letter of its class behind it. -/
def parseRuns (s : String) : List Run :=
  let (_, _, found) := s.toList.foldl (fun (first, length, found) c =>
    match hexDigit? c, ofLetter? c with
    | some d, _ => (first, 16 * length + d, found)
    | none, some kind => (first + max 1 length, 0, ⟨first, first + max 1 length - 1, kind⟩ :: found)
    | none, none => (first, length, found)) (0, 0, ([] : List Run))
  found.reverse

def runs : List Run := parseRuns
  "20x10pam7p1al4pmp1al4p22x9pl2px7pl4pl5p17lp1flp1cal4pclep5l7plpl11p70m5lp2l2x4lpl4x2plp3lxlx14lx
   53lp8blp5m2pa6lx26l2xl6p29l2p2x3px2dmpmp2mp2mpm8x1bl4x4l2p11xapbmpx3p2bl1fm4p2lm63lpl7mxp6m2l2mp
   4m2lam3l2plep2xlm1el1bm2x59lbmlexam21l9m2l4pl2xm2p16l4ml9ml3ml5m2xfpx19l3m2xpxbl5x18lp7l7x9m2al
   18mx21m36l3ml12ml7mal2m2pamp10l3mx8l2x2l2x16lx7lxl3x4l2xml7m2x2m2x3ml8xm4x2lx3l2m2xam2laplpm2x3m
   x6l4x2l2x16lx7lx2lx2lx2l2xmx5m4x2m2x3m3xm7x4lxl7xcm3lmpax3mx9lx3lx16lx7lx2lx5l2xml8mx3mx3m2xlfx
   2l2m2xam2p7xl6mx3mx8l2x2l2x16lx7lx2lx5l2xml7m2x2m2x3m7x3m4x2lx3l2m2xampl6paxmlx6l3x3lx4l3x2lxlx
   2l3x2l3x3l3xcl4x5m3x3mx4m2xl6xmexambp5x5m8lx3lx17lx10l2xml7mx3mx4m7x2mx3lx2l2x2l2m2xam7x9pl3mp8l
   x3lx17lxalx5l2xml7mx3mx4m7x2m5x3lx2l2m2xamx2lmcx4m9lx3lx29l2ml7mx3mx4mlp4x3lm7p3l2m2xamap6lx3mx
   12l3x18lx9lxl2x7l3xm4x6mxmx8m6xam2x2mpcx30lm2l7m4xp7l8mpam2p25x2lxlx5lx18lxlxalm2l9ml2x5lxlx7mx
   am2x4l20xl17p2m6pambpmpmpm4p2m8lx24l4x14mp2m5lbmx24mx8pm6pxdp25x2bl14mlam6p6l4m4l3ml3m2l7m3l4mdl
   cmlfm2p26lxl5xl2x2blp14dlx4l2x7lxlx4l2x29lx4l2x21lx4l2x7lxlx4l2xflx39lx4l2x43l2x3m1dp3x10lap6x
   56l2x6l2xp26cl2p11lx1al2p3x4bl3pbl7x12l4m9x13l3m2p9x12l2mcxdlx3lx2mcx34l20m3pl4plm2xam6xap6xbp3m
   xbm6x59l7x5l2m22lml5x46lax1flxcm4xcm4xp3x2pam1el2x5lbx2cl4x1al6xamp3x22p17l5m2x2p35lamx1dm2xbm6x
   am6x7pl6p2xemp1fm2xcm14x5m2fl11m8lx2pam11p9mcp3m1eldm2lam2clem8x4p24l14m3x5pam3x3lam24l2pbl5x2bl
   2x3l8p8x3mp15m4lm6lm2l3ml5xc0l40m116l2x6l2x26l2x6l2x8lxlxlxlx1fl2x35lx7lpl3p3lx7l3p4l2x6lx3pdl3p
   2x3lx7l2p11x18p8xfp2m13pmap11xpl2xbplfpxdl3x22pexdm4pm3pcmfx2pl4pl2palpl3p5l6plplplp4lpbl2p4l5p
   5l4pl11p29l3p4x29ap16xbp15x714p2x8ape5l6p4l3m2l5x7p26lxl5xl2x38l7xlpexm17l9x7lx7lx7lx7lx7lx7lx7l
   x7lx20m2fpl2ep22x1apx59pcxd6p1ax10px4p3l19p9l6mp5l2p5l3px56l2x2m2p3lp5alp4l5x2blx5elx10p20l26p9x
   p10l1fpx1e0p19c0l40p568dl3x37p9x2el2p10dl3p10lam2l14x2flm4pamp1fl2m50l2m6p8x17p9l2p67l2p52l14x
   11lm3lm4lm17l5m4pm3xap6x34l4p8x2m32l12m8x2pam6x12m6l3plp2lbm1cl8m2p17ldmbxp1dl3x4m2flemdpxlam4x
   2p5lmalam5lx29lem9x3lm8l2m2xam2x4p17l3pl3m32lml3m2l2m5l2mlml18x3l2pbl5m2p3l2max6l2x6l2x6l9x7lx7l
   x2blpel2p4x73l8mp2m2xam6x2ba4lcx17l4x31l2104x16el2x6al26x7lcx5l5xlmalpdlx5lxlx2lx2lx6cl21p16bl
   12p40l2p36l8p20xcl4p10map6x10m3p2m18p3m3px13px4p4x5lx87l4xfpam7p1al4pmp1albp59l3x6l2x6l2x6l2x3l
   3x7px7pdx2p2xclx1alx13lx2lxfl2xel22x7bl5x3p4x2dp3x9p35l1apxdp3xp2fx2dpm82x1dl3x31lfxm1bp4x20l4p
   9x1el5x26l5m5x1elxp24l4x8lp5l2ax9el2xam6x24l4x24l4x28l8x34lbxpblxflx7lx2lxblxflx7lx2l3x34lcx137l
   9x16lax8l18x6lx2alx9l45x6l2xlx2clx2l3xl2x17lx9p17l9p1fl8x9p30x13lx2l5x5p16l6p3xp1al5xp1al26x38l
   4x2p2l10p2x2epl3mx2m5x4m4lx3lx1dl2x3m4xm9p7x9p7x1dl3p1dl3p20x8lp1cl2m4xcp9x36l3x7p16l2x8p13l5x8p
   12l7x4pcx7p50x49l37x33ldx33l7x6p24l4m8xam6xam1cl3x5mp17l8x2pd0x1fpx2alx2mp2x2l10x6l8x9p21x6m1dl
   apl8x16lbm9p16x12l4m4p26x15l7p14x17l9x3m35lfm7p4x14pbm2l2ml9x4m2dlbm2px4pmdx19l7xam6x3m24lemxam
   4pl2ml8x23lm2pl9x3m30lem4l4p4mpcmlpl3px14pbx12lx19lcm6pm2lm3ex7lxlx4lxflxalp6x2flcm5xam6x4mx8l2x
   2l2x16lx7lx2lx5lx2ml7m2x2m2x3m2xl6xm5x5l2m2x7m3x5mbxalxl2xlx26lxl9mxm2xmx4mx5mlml2px2p8x2m1dx35l
   12m4l5pam2pxpm3l1ex30l14m2lpl8xama6x2fl7m2x9m17p4l2m22x30l11m3plbxam6xdp13x2bldmlp6xam6x14m1cx
   1bl2xfm4xam6p7lb9x2clfmp64x40lam9pcx8l2xl2x8lx2lx18l6mx2m2x4mlml2m3p9xam46x8l2x27l7m2x7mlplm1bxl
   am28l7ml4m8pm8xlbm2el10m3pl5pdx49l7xap56x8m58x21lpexam6x9lx25l8mx8ml5paxam13p3x2p1el2x16mxem49x
   7lx2lx26l6m3xmx2mx7mlm8xam6x6lx2lx20l5mx2mx5ml7xam6x2cl4xamf6x13l4m2p7x2mlmdlx22l7m3x5mdpbm55xl
   fx32pdxp39al66x6flx5pbxc4la4cx61l2pdx430l10xm6lfmaxf9bl5x247l1ab9x1el1cm6c6x239l7x1flxam4x2p4flx
   am6x1el2x5mpax30l7m9p4l2paxamx7px15l5x13l1b0x2dl3pamc6x40l1bp5x19l2x19l2cx4bl4xml37m7x4mdl40x2lp
   lmbx2m5l9x1cd6l29x20l61x73l21fdx4lx7lx2lx123lfxl1dx3l2xlex4l8x18cl904x6bl5xdl3x9l7xal2xp2mpf60x
   f0pam3p3x1b4p6x17pfx11pfx2em2x17m9x74p3cxf6pax27p2x3cp5m3p6m8x8m2p7m1ep4m3dp15x42p3mp7ax14pcx14p
   cx57p9x19p87x55lx47lx2l2xl2x2l2x4lxclxlx7lx41lx4l2x8lx7lx1clx4lx5lxl3x7lx154l2x19lp19lp1flp19lp
   1flp19lp1flp19lp1flp19lp8l2x32m200p37m4p32m8pmepm7pfx5mxfm450x1fl6x6ld5x7mx11m2x7mx2mx5m5x3el21x
   m70x2dl3x7m7l2xam4xlp140x1elm11x2clem5xp1d0x1clemd6x1el2mlam4xpc0x1flx3lm2lm7l2m5lm8x2le0x7lx4lx
   2lxflxc5l2x9p7m29x44l7ml4xam4x2p311x44p4cx3dpc2x4lx1blx2lxl2xlxalx4lxlxl6xl4xlxlxlx3lx2lxl2xlxlx
   lxlxlx2lxl2x4lx7lx4lx4lxlxalx11l5x3lx5lx11l34x2p10ex2cp4x64pcxfp2xfpxfpx25paxaep38x1dpdx2cp4x9p
   7x2pex6p9ax3d9p3x11p3xdp3xdap6xcp4xpfxcp4x38p8xap6x28p8x1ep2xcp4x2pex9p27x158p8xep2xdp3xbp3x39px
   p4x10p2xcp4xap7x93px5cpamp405xa6e0l20x111el2x168el2x1d31lfx26el9a2x21el5e2x134bl5x212alacc86xf0m
   2fe10x"

def codes (kinds : List CharClass) : Ranges :=
  .ofAscending ((runs.filter (kinds.contains ·.kind)).map fun run => (run.first, run.last))

end CharClass

def letters : Ranges := CharClass.codes [.letter]

/-- What may follow in an identifier besides letters, the underscore being one of these. -/
def extenders : Ranges := CharClass.codes [.mark]

/-- The characters that stand for themselves in quoted texts. -/
def printable : Ranges := CharClass.codes [.letter, .mark, .symbol]

def isPrintable (c : Char) : Bool := printable.contains c.toNat

end ExprBackend.Text
