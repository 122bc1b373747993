import ExprBackend.Text.Assignments

/-! # Compositions

The characters of Unicode 15.0 that two others compose to: every canonical
decomposition into two characters that is not excluded from composition. Hangul
syllables are composed by arithmetic and are not listed.
-/

namespace ExprBackend.Text

/-- The first characters and what they compose to with the same second one, in turn. -/
def composedWith (second : Nat) : List Char → List Assignment
  | first :: whole :: rest =>
    ⟨whole.toNat, whole.toNat, [first.toNat, second]⟩ :: composedWith second rest
  | _ => []

/-- Reads the compositions of one word, with the number of the second character in front. -/
def parseComposed (word : List Char) : List Assignment :=
  composedWith (hexNumber (word.takeWhile (· != ':'))) ((word.dropWhile (· != ':')).drop 1)

/-- Vowel signs that are composed of two, by their numbers. -/
def composedSigns : Assignments := .parse
  "9cb:9c7,9be 9c7,9d7 b48:b47,b56 b4b:b47,b3e b47,b57 bca:bc6,bbe bc7,bbe bc6,bd7 c48:c46,c56
   cc0:cbf,cd5 cc7:cc6,cd5 cc6,cd6 cca:cc6,cc2 cca,cd5 d4a:d46,d3e d47,d3e d46,d57 dda:dd9,dca
   ddc:dd9,dcf ddc,dca dd9,ddf 1b3b:1b3a,1b35 1b3d:1b3c,1b35 1b40:1b3e,1b35 1b3f,1b35
   1b43:1b42,1b35 1112e:11131,11127 11132,11127 1134b:11347,1133e 11347,11357 114bb:114b9,114ba
   114b9,114b0 114be:114b9,114bd 115ba:115b8,115af 115b9,115af 11938:11935,11930"

def composedLetters : String :=
  "300:AÀEÈIÌOÒUÙaàeèiìoòuùÜǛüǜNǸnǹЕЀИЍеѐиѝĒḔēḕŌṐōṑWẀwẁÂẦâầĂẰăằÊỀêềÔỒôồƠỜơờƯỪưừYỲyỳἀἂἁἃἈἊἉἋἐἒἑἓἘἚἙἛ
   300:ἠἢἡἣἨἪἩἫἰἲἱἳἸἺἹἻὀὂὁὃὈὊὉὋὐὒὑὓὙὛὠὢὡὣὨὪὩὫαὰεὲηὴιὶοὸυὺωὼΑᾺΕῈΗῊ᾿῍ϊῒΙῚ῾῝ϋῢΥῪ¨῭ΟῸΩῺ 301:AÁEÉIÍOÓUÚYÝ
   301:aáeéiíoóuúyýCĆcćLĹlĺNŃnńRŔrŕSŚsśZŹzźÜǗüǘGǴgǵÅǺåǻÆǼæǽØǾøǿ¨΅ΑΆΕΈΗΉΙΊΟΌΥΎΩΏϊΐαάεέηήιίϋΰοόυύωώϒϓ
   301:ГЃКЌгѓкќÇḈçḉĒḖēḗÏḮïḯKḰkḱMḾmḿÕṌõṍŌṒōṓPṔpṕŨṸũṹWẂwẃÂẤâấĂẮăắÊẾêếÔỐôốƠỚơớƯỨưứἀἄἁἅἈἌἉἍἐἔἑἕἘἜἙἝἠἤἡἥ
   301:ἨἬἩἭἰἴἱἵἸἼἹἽὀὄὁὅὈὌὉὍὐὔὑὕὙὝὠὤὡὥὨὬὩὭ᾿῎῾῞ 302:AÂEÊIÎOÔUÛaâeêiîoôuûCĈcĉGĜgĝHĤhĥJĴjĵSŜsŝWŴwŵYŶyŷZẐ
   302:zẑẠẬạậẸỆẹệỌỘọộ 303:AÃNÑOÕaãnñoõIĨiĩUŨuũVṼvṽÂẪâẫĂẴăẵEẼeẽÊỄêễÔỖôỗƠỠơỡƯỮưữYỸyỹ 304:AĀaāEĒeēIĪiī
   304:OŌoōUŪuūÜǕüǖÄǞäǟȦǠȧǡÆǢæǣǪǬǫǭÖȪöȫÕȬõȭȮȰȯȱYȲyȳИӢиӣУӮуӯGḠgḡḶḸḷḹṚṜṛṝαᾱΑᾹιῑΙῙυῡΥῩ 306:AĂaăEĔeĕGĞgğ
   306:IĬiĭOŎoŏUŬuŭУЎИЙийуўЖӁжӂАӐаӑЕӖеӗȨḜȩḝẠẶạặαᾰΑᾸιῐΙῘυῠΥῨ 307:CĊcċEĖeėGĠgġIİZŻzżAȦaȧOȮoȯBḂbḃDḊdḋFḞ
   307:fḟHḢhḣMṀmṁNṄnṅPṖpṗRṘrṙSṠsṡŚṤśṥŠṦšṧṢṨṣṩTṪtṫWẆwẇXẊxẋYẎyẏſẛ 308:AÄEËIÏOÖUÜaäeëiïoöuüyÿYŸΙΪΥΫιϊυϋ
   308:ϒϔЕЁІЇеёіїАӒаӓӘӚәӛЖӜжӝЗӞзӟИӤиӥОӦоӧӨӪөӫЭӬэӭУӰуӱЧӴчӵЫӸыӹHḦhḧÕṎõṏŪṺūṻWẄwẅXẌxẍtẗ 309:AẢaảÂẨâẩĂẲăẳ
   309:EẺeẻÊỂêểIỈiỉOỎoỏÔỔôổƠỞơởUỦuủƯỬưửYỶyỷ 30a:AÅaåUŮuůwẘyẙ 30b:OŐoőUŰuűУӲуӳ 30c:CČcčDĎdďEĚeěLĽlľNŇ
   30c:nňRŘrřSŠsšTŤtťZŽzžAǍaǎIǏiǐOǑoǒUǓuǔÜǙüǚGǦgǧKǨkǩƷǮʒǯjǰHȞhȟ 30f:AȀaȁEȄeȅIȈiȉOȌoȍRȐrȑUȔuȕѴѶѵѷ
   311:AȂaȃEȆeȇIȊiȋOȎoȏRȒrȓUȖuȗ 313:αἀΑἈεἐΕἘηἠΗἨιἰΙἸοὀΟὈυὐωὠΩὨρῤ 314:αἁΑἉεἑΕἙηἡΗἩιἱΙἹοὁΟὉυὑΥὙωὡΩὩρῥ
   314:ΡῬ 31b:OƠoơUƯuư 323:BḄbḅDḌdḍHḤhḥKḲkḳLḶlḷMṂmṃNṆnṇRṚrṛSṢsṣTṬtṭVṾvṿWẈwẉZẒzẓAẠaạEẸeẹIỊiịOỌoọƠỢơợ
   323:UỤuụƯỰưựYỴyỵ 324:UṲuṳ 325:AḀaḁ 326:SȘsșTȚtț 327:CÇcçGĢgģKĶkķLĻlļNŅnņRŖrŗSŞsşTŢtţEȨeȩDḐdḑHḨhḩ
   328:AĄaąEĘeęIĮiįUŲuųOǪoǫ 32d:DḒdḓEḘeḙLḼlḽNṊnṋTṰtṱUṶuṷ 32e:HḪhḫ 330:EḚeḛIḬiḭUṴuṵ 331:BḆbḇDḎdḏKḴkḵ
   331:LḺlḻNṈnṉRṞrṟTṮtṯZẔzẕhẖ 338:←↚→↛↔↮⇐⇍⇔⇎⇒⇏∃∄∈∉∋∌∣∤∥∦∼≁≃≄≅≇≈≉=≠≡≢≍≭<≮>≯≤≰≥≱≲≴≳≵≶≸≷≹≺⊀≻⊁⊂⊄⊃⊅⊆⊈⊇⊉⊢⊬
   338:⊨⊭⊩⊮⊫⊯≼⋠≽⋡⊑⋢⊒⋣⊲⋪⊳⋫⊴⋬⊵⋭ 342:ἀἆἁἇἈἎἉἏἠἦἡἧἨἮἩἯἰἶἱἷἸἾἹἿὐὖὑὗὙὟὠὦὡὧὨὮὩὯαᾶ¨῁ηῆ᾿῏ιῖϊῗ῾῟υῦϋῧωῶ
   345:ἀᾀἁᾁἂᾂἃᾃἄᾄἅᾅἆᾆἇᾇἈᾈἉᾉἊᾊἋᾋἌᾌἍᾍἎᾎἏᾏἠᾐἡᾑἢᾒἣᾓἤᾔἥᾕἦᾖἧᾗἨᾘἩᾙἪᾚἫᾛἬᾜἭᾝἮᾞἯᾟὠᾠὡᾡὢᾢὣᾣὤᾤὥᾥὦᾦὧᾧὨᾨὩᾩὪᾪὫᾫὬᾬὭᾭ
   345:ὮᾮὯᾯὰᾲαᾳάᾴᾶᾷΑᾼὴῂηῃήῄῆῇΗῌὼῲωῳώῴῶῷΩῼ 653:اآ 654:اأوؤيئەۀہۂےۓ 655:اإ 93c:नऩरऱळऴ bd7:ஒஔ 102e:ဥဦ
   1b35:ᬅᬆᬇᬈᬉᬊᬋᬌᬍᬎᬑᬒ 3099:かがきぎくぐけげこごさざしじすずせぜそぞただちぢつづてでとどはばひびふぶへべほぼうゔゝゞカガキギクグケゲコゴサザシジスズセゼソゾタダチヂツヅテデトド
   3099:ハバヒビフブヘベホボウヴワヷヰヸヱヹヲヺヽヾ 309a:はぱひぴふぷへぺほぽハパヒピフプヘペホポ 110ba:𑂙𑂚𑂛𑂜𑂥𑂫"

def compositions : Assignments :=
  ⟨(words composedLetters.toList).flatMap parseComposed ++ composedSigns.entries⟩

end ExprBackend.Text
