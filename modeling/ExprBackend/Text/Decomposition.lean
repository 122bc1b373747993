import ExprBackend.Text.Assignments

/-! # Compatibility decompositions

The characters of Unicode 15.0 that have a compatibility decomposition and are
not composed of two others, with what they are made of. A range with one target
stands for characters made of the characters from that target on. Hangul syllables
are decomposed by arithmetic and are not listed.
-/

namespace ExprBackend.Text

def decompositions : Assignments := .parse
  "a0:20 a8:20,308 aa=a af:20,304 b2-b3=2 20,301 3bc b8:20,327 *1o bc&1⁄41⁄23⁄4 132+IJij 13f+L·l·
   149=ʼn 17f=s 1c4+DŽDždžLJLjljNJNjnj 1f1+DZDzdz 2b0*hɦjrɹɻʁwy 2d8:20,306 20,307 20,30a 20,328
   20,303 20,30b 2e0*ɣlsxʕ 340-341:300 343:313 308,301 374=ʹ 37a:20,345 37e=; 384:20,301 387:b7
   3d0*βθΥ 3d5*φπ 3f0*κρς 3f4*Θε 3f9=Σ 587=եւ 675+اٴوٴۇٴيٴ 958+क़ख़ग़ज़ड़ढ़फ़य़ 9dc+ড়ঢ় 9df=য়
   a33=ਲ਼ a36=ਸ਼ a59+ਖ਼ਗ਼ਜ਼ a5e=ਫ਼ b5c+ଡ଼ଢ଼ e33:e4d,e32 eb3:ecd,eb2 edc+ຫນຫມ f0c:f0b f43=གྷ f4d=ཌྷ
   f52=དྷ f57=བྷ f5c=ཛྷ f69=ཀྵ f73:f71,f72 f75:f71,f74 fb2,f80 fb2,f71,f80 fb3,f80 fb3,f71,f80
   f81:f71,f80 f93:f92,fb7 f9d:f9c,fb7 fa2:fa1,fb7 fa7:fa6,fb7 fac:fab,fb7 fb9:f90,fb5 10fc=ნ
   1d2c*AÆB 1d30-1d31=D 18e 1d33-1d3a=G 1d3c*OȢPRTUWaɐɑᴂbdeəɛɜg 1d4f*kmŋoɔᴖᴗptuᴝɯvᴥβγδφχiruvβγρφχ
   1d78=н 1d9b*ɒcɕðɜfɟɡɥɨɩɪᵻʝɭᶅʟɱɰ 1dae-1db1=ɲ *ɸʂʃƫʉʊᴜʋʌzʐʑʒθ 1e9a=aʾ 1f71=ά 1f73=έ 1f75=ή 1f77=ί
   1f79=ό 1f7b=ύ 1f7d=ώ 1fbb=Ά 1fbd:20,313 3b9 20,313 20,342 1fc9=Έ 1fcb=Ή 1fd3=ΐ 1fdb=Ί 1fe3=ΰ
   1feb=Ύ 1fee:20,308,301 60 1ff9=Ό 1ffb=Ώ 1ffd:20,301 20,314 2000:20 20 20 20 20 20 20 20 20 20 20
   2011=‐ 2017:20,333 2024=. =.. =... 202f:20 2033=′′ =′′′ 2036=‵‵ =‵‵‵ 203c=!! 203e:20,305
   2047+???!!? 2057=′′′′ 205f:20 2070*0i 2074-2079=4 *+− 3d *()n 2080-2089=0 *+− 3d *()
   2090*aeoxəhklmnpst 20a8=Rs 2100&a/ca/s 43 =°C 2105&c/oc/u 190 2109=°F *gHHHhħIILl 2115=N =No
   2119-211b=P *RR 2120=SM =TEL =TM 2124=Z 2126=Ω 2128=Z 212a*KÅBC 212f*eEF 2133*Mo 2135-2138=א 69
   213b=FAX *πγΓΠ∑ 2145*Ddeij 2150&1⁄71⁄9 =1⁄10 &1⁄32⁄31⁄52⁄53⁄54⁄51⁄65⁄61⁄83⁄85⁄87⁄8 =1⁄ 49 =II
   =III =IV 56 =VI =VII =VIII =IX 58 =XI =XII *LCDMi =ii =iii =iv 76 =vi =vii =viii =ix 78 =xi =xii
   *lcdm 2189=0⁄3 222c=∫∫ =∫∫∫ 222f=∮∮ =∮∮∮ 2329-232a=〈 2460-2468=1 +1011121314151617181920
   &(1)(2)(3)(4)(5)(6)(7)(8)(9) =(10) =(11) =(12) =(13) =(14) =(15) =(16) =(17) =(18) =(19) =(20)
   +1.2.3.4.5.6.7.8.9. &10.11.12.13.14.15.16.17.18.19.20.(a)(b)(c)(d)(e)(f)(g)(h)(i)(j)(k)(l)(m)(n)
   &(o)(p)(q)(r)(s)(t)(u)(v)(w)(x)(y)(z) 24b6-24cf=A 24d0-24e9=a 30 2a0c=∫∫∫∫ 2a74:3a,3a,3d 3d,3d
   3d,3d,3d 2adc=⫝̸ 2c7c*jV 2d6f=ⵡ 2e9f=母 2ef3=龟 2f00*一丨丶丿乙亅二亠人儿入八冂冖冫几凵刀力勹匕匚匸十卜卩厂厶又口囗土士夂夊夕大女子宀寸小尢尸屮山
   *巛工己巾干幺广廴廾弋弓彐彡彳心戈戶手支攴文斗斤方无日曰月木欠止歹殳毋比毛氏气水火爪父爻爿片牙牛犬玄玉瓜瓦甘生用田疋疒癶白皮皿目矛矢石示禸禾穴立竹米糸缶网羊羽老而耒耳聿肉臣自至臼舌舛舟艮色艸虍虫
   *血行衣襾見角言谷豆豕豸貝赤走足身車辛辰辵邑酉釆里金長門阜隶隹雨靑非面革韋韭音頁風飛食首香馬骨高髟鬥鬯鬲鬼魚鳥鹵鹿麥麻黃黍黑黹黽鼎鼓鼠鼻齊齒龍龜龠 3000:20 3036=〒 3038*十卄卅
   309b:20,3099 20,309a 309f=より 30ff=コト 3131-3132:1100 11aa 1102 11ac 11ad 1103 1104 1105
   313a-313f:11b0 111a 1106 1107 1108 1121 3145-314e:1109 314f-3163:1161 1160 1114 1115 11c7 11c8
   11cc 11ce 11d3 11d7 11d9 111c 11dd 11df 111d 111e 1120 1122 1123 1127 1129 3178-317c:112b 1132
   1136 1140 1147 114c 11f1 11f2 1157 1158 1159 1184 1185 1188 1191 1192 1194 119e 11a1
   3192*一二三四上中下甲乙丙丁天地人 3200:28,1100,29 28,1102,29 28,1103,29 28,1105,29 28,1106,29 28,1107,29
   28,1109,29 28,110b,29 28,110c,29 28,110e,29 28,110f,29 28,1110,29 28,1111,29 28,1112,29
   &(가)(나)(다)(라)(마)(바)(사)(아)(자)(차)(카)(타)(파)(하)(주) =(오전) =(오후) 3220&(一)(二)(三)(四)(五)(六)(七)(八)(九)(十)(月)
   &(火)(水)(木)(金)(土)(日)(株)(有)(社)(名)(特)(財)(祝)(労)(代)(呼)(学)(監)(企)(資)(協)(祭)(休)(自)(至) *問幼文箏 3250=PTE
   +212223242526272829303132333435 1100 1102 1103 1105 1106 1107 1109 110b 110c 3269-326d:110e
   *가나다라마바사아자차카타파하 +참고주의 c6b0 3280*一二三四五六七八九十月火水木金土日株有社名特財祝労秘男女適優印注項休写正上中下左右医宗学監企資協夜 +36373839404142
   +43444546474849501月2月3月4月5月6月7月8月9月 &10月11月12月 =Hg =erg =eV =LTD *アイウエオカキクケコサシスセソタチツテト
   32e4-32e9=ナ *ヒフヘホ 32ee-32f2=マ *ヤユ 32f5-32fa=ヨ 32fb-32fe=ワ =令和 =アパート =アルファ =アンペア =アール =イニング
   &インチウォン =エスクード =エーカー &オンスオームカイリ =カラット =カロリー &ガロンガンマ =ギガ =ギニー =キュリー =ギルダー =キロ =キログラム =キロメートル
   =キロワット =グラム =グラムトン =クルゼイロ =クローネ &ケースコルナコーポ =サイクル =サンチーム =シリング &センチセントダース +デシドルトンナノ &ノットハイツ =パーセント
   =パーツ =バーレル =ピアストル =ピクル +ピコビル =ファラッド =フィート =ブッシェル =フラン =ヘクタール =ペソ &ペニヒヘルツペンスページベータ =ポイント =ボルト =ホン
   &ポンドホールホーン =マイクロ &マイルマッハマルク =マンション =ミクロン =ミリ =ミリバール =メガ =メガトン =メートル &ヤードヤールユアン =リットル =リラ =ルピー
   =ルーブル =レム =レントゲン =ワット +0点1点2点3点4点5点6点7点8点9点 &10点11点12点13点14点15点16点17点18点19点20点21点22点23点24点hPa
   +daAU =bar +oVpcdm &dm2dm3 +IU平成昭和大正明治 =株式会社 +pAnAμAmAkAKBMBGB =cal =kcal +pFnFμFμgmgkgHz
   &kHzMHzGHzTHz +μlmldlklfmnmμmmmcmkm &mm2cm2 =m2 &km2mm3cm3 =m3 &km3m∕s =m∕s2 =Pa &kPaMPaGParad
   =rad∕s =rad∕s2 +psnsμsmspVnVμVmVkVMVpWnWμWmWkWMWkΩMΩ =a.m. +Bqcccd =C∕kg =Co. +dBGyhaHPinKKKMktlm
   +ln =log +lxmb &milmol =PH =p.m. =PPM +PRsrSvWb &V∕mA∕m +1日2日3日4日5日6日7日8日9日 &10日11日12日13日14日15日
   &16日17日18日19日20日21日22日23日24日25日26日27日28日29日30日31日gal a69c*ъь a770=ꝯ a7f2*CFQ a7f8*Ħœ ab5c*ꜧꬷɫꭒ
   ab69=ʍ f900*豈更車賈滑串句龜龜契金喇奈懶癩羅蘿螺裸邏樂洛烙珞落酪駱亂卵欄爛蘭鸞嵐濫藍襤拉臘蠟廊朗浪狼郎來冷勞擄櫓爐盧老蘆虜路露魯鷺碌祿綠菉錄鹿論壟弄籠聾牢磊賂雷壘屢樓淚漏累縷陋勒肋凜
   *凌稜綾菱陵讀拏樂諾丹寧怒率異北磻便復不泌數索參塞省葉說殺辰沈拾若掠略亮兩凉梁糧良諒量勵呂女廬旅濾礪閭驪麗黎力曆歷轢年憐戀撚漣煉璉秊練聯輦蓮連鍊列劣咽烈裂說廉念捻殮簾獵令囹寧嶺怜玲瑩羚聆鈴零靈領
   *例禮醴隸惡了僚寮尿料樂燎療蓼遼龍暈阮劉杻柳流溜琉留硫紐類六戮陸倫崙淪輪律慄栗率隆利吏履易李梨泥理痢罹裏裡里離匿溺吝燐璘藺隣鱗麟林淋臨立笠粒狀炙識什茶刺切度拓糖宅洞暴輻行降見廓兀嗀 fa10=塚
   fa12=晴 fa15*凞猪益礼神祥福靖精羽 fa20=蘒 fa22=諸 fa25*逸都 fa2a*飯飼館鶴郞隷侮僧免勉勤卑喝嘆器塀墨層屮悔慨憎懲敏既暑梅海渚漢煮爫琢碑社祉祈祐祖祝禍禎穀突節練縉
   *繁署者臭艹艹著褐視謁謹賓贈辶逸難響頻恵𤋮舘 fa70*並况全侀充冀勇勺喝啕喙嗢塚墳奄奔婢嬨廒廙彩徭惘慎愈憎慠懲戴揄搜摒敖晴朗望杖歹殺流滛滋漢瀞煮瞧爵犯猪瑱甆画瘝瘟益盛直睊着磌窱節类絛練缾者荒華
   *蝹襁覆視調諸請謁諾諭謹變贈輸遲醙鉶陼難靖韛響頋頻鬒龜𢡊𢡄𣏕㮝䀘䀹𥉉𥳐𧻓齃龎 fb00+fffifl &ffiffl +stst fb13+մնմեմիվնմխ fb1d=יִ fb1f=ײַ
   *עאדהכלםרת+ +שׁשׂ &שּׁשּׂ +אַאָאּבּגּדּהּוּזּ fb38+טּיּךּכּלּ fb3e=מּ fb40+נּסּ fb43+ףּפּ
   fb46+צּקּרּשּתּוֹבֿכֿפֿאל *ٱٱٻٻٻٻپپپپڀڀڀڀٺٺٺٺٿٿٿٿٹٹٹٹڤڤڤڤڦڦڦڦڄڄڄڄڃڃڃڃچچچچڇڇڇڇڍڍڌڌڎڎڈڈژژڑڑککککگگگگ
   *ڳڳڳڳڱڱڱڱںںڻڻڻڻۀۀہہہہھھھھےےۓۓ fbd3*ڭڭڭڭۇۇۆۆۈۈ =ۇٴ *ۋۋۅۅۉۉېېېېىى +ئائائەئەئوئوئۇئۇئۆئۆئۈئۈئېئېئېئى
   +ئىئى *یییی +ئجئحئمئىئيبجبحبخبمبىبيتجتحتختمتىتيثجثمثىثيجحجمحجحمخجخحخمسجسحسخسمصحصمضجضحضخضمطحطمظمعج
   +عمغجغمفجفحفخفمفىفيقحقمقىقيكاكجكحكخكلكمكىكيلجلحلخلملىليمجمحمخمممىمينجنحنخنمنىنيهجهمهىهييجيحيخيميى
   +ييذٰرٰىٰ 20,64c,651 20,64d,651 20,64e,651 20,64f,651 20,650,651 20,651,670 +ئرئزئمئنئىئيبربزبمبن
   +بىبيترتزتمتنتىتيثرثزثمثنثىثيفىفيقىقيكاكلكمكىكيلملىليماممنرنزنمنننىنيىٰيريزيمينيىييئجئحئخئمئهبجبح
   +بخبمبهتجتحتختمتهثمجحجمحجحمخجخمسجسحسخسمصحصخصمضجضحضخضمطحظمعجعمغجغمفجفحفخفمقحقمكجكحكخكلكملجلحلخلمله
   +مجمحمخممنجنحنخنمنههجهمهٰيجيحيخيميهئمئهبمبهتمتهثمثهسمسهشمشهكلكملمنمنهيميه &ـَّـُّـِّ
   +طىطيعىعيغىغيسىسيشىشيحىحيجىجيخىخيصىصيضىضيشجشحشخشمشرسرصرضرطىطيعىعيغىغيسىسيشىشيحىحيجىجيخىخيصىصيضىضي
   +شجشحشخشمشرسرصرضرشجشحشخشمسهشهطمسجسحسخشجشحشخطمظماًاً fd50&تجمتحجتحجتحمتخمتمجتمحتمخجمحجمححميحمىسحج
   &سجحسجىسمحسمحسمجسممسممصححصححصممشحمشحمشجيشمخشمخشممشممضحىضخمضخمطمحطمحطممطميعجمعممعممعمىغممغميغمىفخم
   &فخمقمحقمملحملحيلحىلججلججلخملخملمحلمحمحجمحممحيمجحمجممخجمخم fd92&مجخهمجهممنحمنحىنجمنجمنجىنمينمىيمم
   &يممبخيتجيتجىتخيتخىتميتمىجميجحىجمىسخىصحيشحيضحيلجيلمييحييجييميمميقمينحيقمحلحمعميكمينجحمخيلجمكمملجم
   &نجحجحيحجيمجيفميبحيكممعجمصممسخينجي fdf0&صلےقلے =الله =اكبر =محمد =صلعم =رسول =عليه =وسلم =صلى
   635,644,649,20,627,644,644,647,20,639,644,64a,647,20,648,633,644,645
   62c,644,20,62c,644,627,644,647 =ریال fe10:2c *、。 3a *;!?〖〗 =... fe30=.. *—– 5f 5f *() 7b 7d
   *〔〕【】《》〈〉 fe41-fe44=「 fe47:5b 5d 20,305 20,305 20,305 20,305 5f 5f 5f 2c *、. fe54=; 3a *?!—() 7b
   7d *〔〕 23 26 2a 2b 2d *<> 3d fe68:5c 24 25 40 fe70:20,64b =ـً 20,64c fe74:20,64d fe76:20,64e =ـَ
   20,64f =ـُ 20,650 =ـِ 20,651 =ـّ 20,652 =ـْ *ءآآأأؤؤإإئئئئااببببةةتتتتثثثثججججححححخخخخددذذررززسسس
   *سششششصصصصضضضضططططظظظظععععغغغغففففققققككككللللممممننننههههووىىيييي +لآلآلألألإلإلالا ff01-ff5e=!
   *⦅⦆。「」、・ヲァィゥェォャュョッーアイウエオカキクケコサシスセソタチツテト ff85-ff8a=ナ *ヒフヘホ ff8f-ff93=マ *ヤユ ff96-ff9b=ヨ *ワン 3099
   309a 1160 1100 1101 11aa 1102 11ac 11ad 1103 1104 1105 ffaa-ffaf:11b0 111a 1106 1107 1108 1121
   ffb5-ffbe:1109 ffc2-ffc7:1161 ffca-ffcf:1167 ffd2-ffd7:116d ffda-ffdc:1173 ffe0-ffe1:a2 ac 20,304
   *¦¥₩ ffe8=│ ffe9-ffec=← *■○ 10781-10782=ː *æʙɓ 10787*ʣꭦʥʤɖɗᶑɘɞʩɤɢɠʛħʜɧʄʪʫɬ𝼄ꞎɮ𝼅ʎ𝼆øɶɷqɺ𝼈ɽɾʀʨʦꭧʧʈⱱ
   107b2*ʏʡʢʘǀǁǂ𝼊𝼞 1d15e+𝅗𝅥𝅘𝅥 &𝅘𝅥𝅮𝅘𝅥𝅯𝅘𝅥𝅰𝅘𝅥𝅱𝅘𝅥𝅲 1d1bb+𝆹𝅥𝆺𝅥 &𝆹𝅥𝅮𝆺𝅥𝅮𝆹𝅥𝅯𝆺𝅥𝅯 1d400-1d419=A 1d41a-1d433=a
   1d434-1d44d=A 1d44e-1d454=a 1d456-1d467=i 1d468-1d481=A 1d482-1d49b=a 41 1d49e-1d49f=C 1d4a2=G
   1d4a5-1d4a6=J 1d4a9-1d4ac=N 1d4ae-1d4b5=S *abcd 1d4bb=f 1d4bd-1d4c3=h 1d4c5-1d4cf=p 1d4d0-1d4e9=A
   1d4ea-1d503=a *AB 1d507-1d50a=D 1d50d-1d514=J 1d516-1d51c=S 1d51e-1d537=a *AB 1d53b-1d53e=D
   1d540-1d544=I 1d546=O 1d54a-1d550=S 1d552-1d56b=a 1d56c-1d585=A 1d586-1d59f=a 1d5a0-1d5b9=A
   1d5ba-1d5d3=a 1d5d4-1d5ed=A 1d5ee-1d607=a 1d608-1d621=A 1d622-1d63b=a 1d63c-1d655=A 1d656-1d66f=a
   1d670-1d689=A 1d68a-1d6a3=a *ıȷ 1d6a8-1d6b8=Α 398 1d6ba-1d6c0=Σ 2207 1d6c2-1d6da=α *∂εθκφρπ
   1d6e2-1d6f2=Α 398 1d6f4-1d6fa=Σ 2207 1d6fc-1d714=α *∂εθκφρπ 1d71c-1d72c=Α 398 1d72e-1d734=Σ 2207
   1d736-1d74e=α *∂εθκφρπ 1d756-1d766=Α 398 1d768-1d76e=Σ 2207 1d770-1d788=α *∂εθκφρπ 1d790-1d7a0=Α
   398 1d7a2-1d7a8=Σ 2207 1d7aa-1d7c2=α *∂εθκφρπϜϝ 1d7ce-1d7d7=0 1d7d8-1d7e1=0 1d7e2-1d7eb=0
   1d7ec-1d7f5=0 1d7f6-1d7ff=0 1e030-1e038=а *клм 1e03c-1e046=о *ыэюꚉәіјөүӏ 1e051-1e059=а *клопс
   1e05f-1e064=у *ъыґіѕџҫꙑұ 1ee00-1ee01=ا *جد 1ee05*وزحطيكلمنسعفصقرشتثخذضظغٮںڡٯ 1ee21*بج 1ee24=ه
   1ee27=ح 1ee29*يكلمنسعفصق 1ee34*شتثخ 1ee39=ض 1ee3b=غ 1ee42=ج 1ee47=ح 1ee49=ي 1ee4b=ل 1ee4d*نسع
   1ee51*صق 1ee54=ش 1ee57=خ 1ee59=ض 1ee5b=غ 1ee5d=ں 1ee5f=ٯ 1ee61*بج 1ee64=ه 1ee67*حطيك
   1ee6c-1ee6d=م *سعفصق 1ee74*شتثخ 1ee79*ضظغٮ 1ee7e=ڡ 1ee80-1ee81=ا *جدهوزحطي 1ee8b-1ee8d=ل
   *سعفصقرشتثخذضظغ 1eea1*بجد 1eea5*وزحطي 1eeab-1eead=ل *سعفصقرشتثخذضظغ 1f100=0. 30,2c 31,2c 32,2c
   33,2c 34,2c 35,2c 36,2c 37,2c 38,2c 39,2c 1f110&(A)(B)(C)(D)(E)(F)(G)(H)(I)(J)(K)(L)(M)(N)(O)(P)
   &(Q)(R)(S)(T)(U)(V)(W)(X)(Y)(Z)〔S〕 *CR +CDWZ 1f130-1f149=A +HVMVSDSS =PPV =WC 1f16a+MCMDMR
   1f190=DJ 1f200+ほかココ 30b5 1f210*手字双デ二多解天交映無料前後再新初終生販声吹演投捕一三遊左中右指走打禁空合満有月申割営配 1f240&〔本〕〔三〕〔二〕〔安〕〔点〕
   &〔打〕〔盗〕〔勝〕〔敗〕 1f250*得可 1fbf0-1fbf9=0 2f800*丽丸乁𠄢你侮侻倂偺備僧像㒞𠘺免兔兤具𠔜㒹內再𠕋冗冤仌冬况𩇟凵刃㓟刻剆割剷㔕勇勉勤勺包匆北卉卑博即卽卿卿卿𠨬灰
   *及叟𠭣叫叱吆咞吸呈周咢哶唐啓啣善善喙喫喳嗂圖嘆圗噑噴切壮城埴堍型堲報墬𡓤売壷夆多夢奢𡚨𡛪姬娛娧姘婦㛮㛼嬈嬾嬾𡧈寃寘寧寳𡬘寿将当尢㞁屠屮峀岍𡷤嵃𡷦嵮嵫嵼巡巢㠯巽帨帽幩㡢𢆃㡼庰庳庶廊𪎒廾𢌱𢌱舁弢弢
   *㣇𣊸𦇚形彫㣣徚忍志忹悁㤺㤜悔𢛔惇慈慌慎慌慺憎憲憤憯懞懲懶成戛扝抱拔捐𢬌挽拼捨掃揤𢯱搢揅掩㨮摩摾撝摷㩬敏敬𣀊旣書晉㬙暑㬈㫤冒冕最暜肭䏙朗望朡杞杓𣏃㭉柺枅桒梅𣑭梎栟椔㮝楂榣槪檨𣚣櫛㰘次𣢧歔㱎歲殟殺
   *殻𣪍𡴋𣫺汎𣲼沿泍汧洖派海流浩浸涅𣴞洴港湮㴳滋滇𣻑淹潮𣽞𣾎濆瀹瀞瀛㶖灊災灷炭𠔥煅𤉣熜𤎫爨爵牐𤘈犀犕𤜵𤠔獺王㺬玥㺸㺸瑇瑜瑱璅瓊㼛甤𤰶甾𤲒異𢆟瘐𤾡𤾸𥁄㿼䀈直𥃳𥃲𥄙𥄳眞真真睊䀹瞋䁆䂖𥐝硎碌磌䃣𥘦祖𥚚𥛅
   *福秫䄯穀穊穏𥥼𥪧𥪧竮䈂𥮫篆築䈧𥲀糒䊠糨糣紀𥾆絣䌁緇縂繅䌴𦈨𦉇䍙𦋙罺𦌾羕翺者𦓚𦔣聠𦖨聰𣍟䏕育脃䐋脾媵𦞧𦞵𣎓𣎜舁舄辞䑫芑芋芝劳花芳芽苦𦬼若茝荣莭茣莽菧著荓菊菌菜𦰶𦵫𦳕䔫蓱蓳蔖𧏊蕤𦼬䕝䕡𦾱𧃒䕫虐虜虧
   *虩蚩蚈蜎蛢蝹蜨蝫螆䗗蟡蠁䗹衠衣𧙧裗裞䘵裺㒻𧢮𧥦䚾䛇誠諭變豕𧲨貫賁贛起𧼯𠠄跋趼跰𠣞軔輸𨗒𨗭邔郱鄑𨜮鄛鈸鋗鋘鉼鏹鐕𨯺開䦕閷𨵷䧦雃嶲霣𩅅𩈚䩮䩶韠𩐊䪲𩒖頋頋頩𩖶飢䬳餩馧駂駾䯎𩬰鬒鱀鳽䳎䳭鵧𪃎䳸𪄅𪈎𪊑麻
   *䵖黹黾鼅鼏鼖鼻𪘀"

end ExprBackend.Text
